import Formulary.Proofs.Expansion

/-!
# What a walk shows

A walk shows nodes to its visitor while the tree changes under it. `Walk.Shows` says that a node is
shown in a state without following the walk: what the visitor does with that node in that state makes
a difference. So a property of everything that is shown is one that decides where another visitor may
do something else without notice (`Walk.Shows.holds`).

Expansion shows only parts of neat formulas, with definitions that stand for macros
(`Definitions.Shown.meets`). A command that is shown is an element of a chain or an operand
(`Tree.Meets.command`).
-/

namespace Formulary

open Plan Shape

/-! ## Shown nodes -/

namespace Walk

variable {σ ε : Type}

/-- A walk shows a node to its visitor in a state: there is another visitor that does something else
with this node in this state alone, and the walk goes otherwise with it. -/
def Shows (walk : Visitor σ ε → Walk σ ε Unit) (visitor : Visitor σ ε) (start : Tree × σ)
    (id : NodeId) (s : Tree × σ) : Prop :=
  ∃ other : Visitor σ ε,
    (∀ id' s', (id', s') ≠ (id, s) → (other id').run.run s' = (visitor id').run.run s') ∧
      (walk other).run.run start ≠ (walk visitor).run.run start

variable {walk : Visitor σ ε → Walk σ ε Unit} {visitor : Visitor σ ε} {start s : Tree × σ}
  {id : NodeId}

/-- Everything that is shown has a property if the walk goes in the same way with every visitor that
does the same with what has the property. -/
theorem Shows.holds {P : NodeId → Tree × σ → Prop} (h : Shows walk visitor start id s)
    (hwalk : ∀ other : Visitor σ ε,
      (∀ id s, P id s → (other id).run.run s = (visitor id).run.run s) →
        (walk other).run.run start = (walk visitor).run.run start) : P id s := by
  obtain ⟨other, hother, hne⟩ := h
  by_contra hnot
  refine hne (hwalk other fun id' s' hP => hother id' s' ?_)
  rintro ⟨⟩
  exact hnot hP

end Walk

/-- The visitor that does not come back from a node in a state. -/
def Visitor.haltedAt {σ ε : Type} [DecidableEq σ] (visitor : Visitor σ ε) (id : NodeId)
    (s : Tree × σ) : Visitor σ ε :=
  fun id' => ExceptT.mk fun s' => if (id', s') = (id, s) then none else (visitor id').run.run s'

/-- A node is shown if the walk does not come back from it. -/
theorem Walk.Shows.of_halted {σ ε : Type} [DecidableEq σ] {walk : Visitor σ ε → Walk σ ε Unit}
    {visitor : Visitor σ ε} {start s : Tree × σ} {id : NodeId}
    (hends : ((walk visitor).run.run start).isSome = true)
    (hhalts : ((walk (visitor.haltedAt id s)).run.run start).isSome = false) :
    Walk.Shows walk visitor start id s := by
  refine ⟨visitor.haltedAt id s, fun id' s' hne => if_neg hne, fun heq => ?_⟩
  rw [heq, hends] at hhalts
  cases hhalts

/-! ## What expansion shows -/

namespace Definitions

/-- Expansion of a formula shows a node in a state. -/
def Shown (steps : Nat) (start : Tree × Definitions) (id : NodeId) (s : Tree × Definitions) : Prop :=
  Walk.Shows (fun v => do Walk.through v steps (← Walk.tree).root) visitor start id s

variable {source : String} {steps : Nat} {t₀ t : Tree} {ds₀ ds : Definitions} {id : NodeId}

/-- Whatever is shown is a part of a neat formula, and the definitions known then stand for macros. -/
theorem Shown.meets (h : Shown steps (t₀, ds₀) id (t, ds)) (hparse : Tree.parseMath source = .ok t₀)
    (hds : ds₀.Reached) : t.Meets id ∧ ∃ ms, ds.StandFor ms := by
  obtain ⟨ms, hknown⟩ := hds.standFor
  obtain ⟨fs, hfs, hneat⟩ := Tree.isNeat_parseMath hparse
  refine Walk.Shows.holds (P := fun id s => s.1.Meets id ∧ ∃ ms, s.2.StandFor ms) h ?_
  intro other hother
  exact (tracks_expandAll hfs hneat hknown.cover (fun id t ds hP => hother id (t, ds) hP) steps).same

end Definitions

/-- A command where expansion can stand is an element of a chain or an operand. -/
theorem Tree.Meets.command {t : Tree} {id : NodeId} {name : String} {parameters : List NodeId}
    (h : t.Meets id) (hnode : t.node id = .command name parameters) :
    ∃ ps, parameters = ps.map Plan.id ∧
      ((∃ up cell rest, RowLive t up ((cell, command id name ps) :: rest)) ∨
        ∃ up s marker, Live t up (script s marker (command id name ps))) := by
  have hcommand : ∀ {p : Plan} {up : Option NodeId}, p.Fits t up →
      t.node p.id = .command name parameters →
        ∃ ps, p = .command p.id name ps ∧ parameters = ps.map Plan.id := by
    intro p up hfits hnode
    rw [hfits.node] at hnode
    cases p with
    | command id name' ps =>
      obtain ⟨rfl, rfl⟩ := Node.command.inj hnode
      exact ⟨ps, rfl, rfl⟩
    | literal | empty | group | script | block => cases hnode
  cases h with
  | chain hlive hcell =>
    obtain ⟨p, rest, rfl⟩ := exists_of_nextCell hcell
    rw [hlive.fits.node] at hnode
    cases hnode
  | element hlive =>
    obtain ⟨ps, hp, hparameters⟩ := hcommand hlive.element.fits hnode
    exact ⟨ps, hparameters, Or.inl ⟨_, _, _, hp ▸ hlive⟩⟩
  | operand hlive =>
    obtain ⟨ps, hp, hparameters⟩ := hcommand hlive.operand.1.fits hnode
    exact ⟨ps, hparameters, Or.inr ⟨_, _, _, hp ▸ hlive⟩⟩
  | parameter hlive hgroup =>
    obtain ⟨ps, hp, -⟩ := hcommand hlive.fits hnode
    rw [hp, shape] at hgroup
    cases hgroup

end Formulary
