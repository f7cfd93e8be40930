import Formulary.Proofs.Filling
import Formulary.Proofs.Resolution
import Formulary.Proofs.Steps

/-!
# Neat shapes

What every formula is like at every stage: literals hold text that could have been read, operands
are atomic, parameters are groups, and commands and blocks have names that could have been read. It
is more than `Shape.Regular`, which has nothing to say of literals, and less than
`Shape.CanonicalChain`, which does not survive expansion.

* `neatRow_of_canonical`: what is read is neat, with its blocks resolved.
* `fills_neat`: a neat body with neat arguments in the place of its placeholders is neat.
-/

namespace Formulary

open BlockMarker (side? isName)

/-- Whether a text is a name for a command: a word or a mark, and none of the two that delimit
blocks. -/
def isCommandName (name : String) : Bool :=
  (isMark name || isWord name) && (side? name).isNone

namespace Shape

variable {fs gs : List Shape} {name : String} {closer : Option Symbol} {m : Macro}
  {parameters : List Shape} {c : Char} {cs : List Char} {f : Shape} {index : Nat}
  {pieces : List Piece}

mutual

/-- An element that is neat. -/
def Neat : Shape → Prop
  | .literal text => text ≠ "" ∧ Written none text.toList
  | .empty => True
  | .group _ inner => inner ≠ [] ∧ NeatRow inner
  | .script _ operand => operand.isAtomic = true ∧ operand.Neat
  | .command name parameters =>
    isCommandName name = true ∧ (isMark name = true → parameters = []) ∧
      (∀ p ∈ parameters, p.isGroup = true) ∧ NeatRow parameters
  | .block name parameters body =>
    isName name = true ∧ (∀ p ∈ parameters, p.isGroup = true) ∧ NeatRow parameters ∧
      body ≠ [] ∧ NeatRow body

/-- Elements that are neat. -/
def NeatRow : List Shape → Prop
  | [] => True
  | f :: fs => f.Neat ∧ NeatRow fs

end

@[simp] theorem neatRow_nil : NeatRow [] := by
  rw [NeatRow]
  trivial

@[simp] theorem neatRow_cons : NeatRow (f :: fs) ↔ f.Neat ∧ NeatRow fs := by
  rw [NeatRow]

@[simp] theorem neatRow_append : NeatRow (fs ++ gs) ↔ NeatRow fs ∧ NeatRow gs := by
  induction fs with
  | nil => simp
  | cons f fs ih => simp [ih, and_assoc]

/-- A chain is neat just if all its elements are. -/
theorem neatRow_iff : NeatRow fs ↔ ∀ f ∈ fs, f.Neat := by
  induction fs with
  | nil => simp
  | cons f fs ih => simp [ih]

@[simp] theorem neat_empty : Neat .empty := by
  rw [Neat]
  trivial

theorem neatRow_chain : NeatRow (chain fs) ↔ NeatRow fs := by
  cases fs <;> simp

theorem NeatRow.contents (h : NeatRow fs) : NeatRow (Shape.contents fs) := by
  unfold Shape.contents
  split
  · exact neatRow_nil
  · exact h

theorem side?_of_isCommandName (h : isCommandName name = true) : side? name = none := by
  rw [isCommandName, Bool.and_eq_true, Option.isNone_iff_eq_none] at h
  exact h.2

mutual

/-- What is neat is regular, and none of its commands delimits a block. -/
theorem Neat.regular : ∀ {f : Shape}, f.Neat → f.Regular fun name => side? name = none
  | .literal _, _ | .empty, _ => by simp [Regular]
  | .group _ _, h => by
    rw [Neat] at h
    rw [Regular]
    exact NeatRow.resolved h.2
  | .script _ _, h => by
    rw [Neat] at h
    rw [Regular]
    exact ⟨h.1, Neat.regular h.2⟩
  | .command _ _, h => by
    rw [Neat] at h
    rw [Regular]
    exact ⟨side?_of_isCommandName h.1, h.2.2.1, NeatRow.resolved h.2.2.2⟩
  | .block .., h => by
    rw [Neat] at h
    rw [Regular]
    exact ⟨h.1, h.2.1, NeatRow.resolved h.2.2.1, h.2.2.2.1, NeatRow.resolved h.2.2.2.2⟩

theorem NeatRow.resolved : ∀ {fs : List Shape}, NeatRow fs → Resolved fs
  | [], _ => regularRow_nil
  | _ :: _, h => by
    rw [neatRow_cons] at h
    rw [Resolved, regularRow_cons]
    exact ⟨Neat.regular h.1, NeatRow.resolved h.2⟩

end

/-! ## What is read -/

/-- The text of a literal in a group is one outside of it. -/
theorem Written.weaken (h : Written closer cs) : Written none cs := by
  induction h with
  | nil => exact nil
  | plain hc _ ih => exact plain hc ih
  | bracket hs _ _ ih => exact bracket hs nofun ih
  | escape s _ ih => exact escape s ih

/-- An element as a reader may give it somewhere. -/
def Readable (f : Shape) : Prop := f = .empty ∨ ∃ place, Canonical place f

theorem AllCanonical.readable {place : Place} (h : AllCanonical place fs) : ∀ f ∈ fs, f.Readable :=
  fun f hf => Or.inr ⟨place, allCanonical_iff.mp h f hf⟩

theorem CanonicalChain.readable (h : CanonicalChain closer fs) :
    fs ≠ [] ∧ ∀ f ∈ fs, f.Readable := by
  rcases h with rfl | ⟨hne, hall, -⟩
  · exact ⟨by simp, by simp [Readable]⟩
  · exact ⟨hne, hall.readable⟩

theorem Readable.literal {text : String} (h : (literal text).Readable) :
    text ≠ "" ∧ Written none text.toList := by
  rcases h with h | ⟨place, h⟩
  · cases h
  · cases place with
    | chain closer =>
      rw [canonical_literal] at h
      exact ⟨h.1, h.2.weaken⟩
    | operand => exact canonical_literal.mp (h.of_operand none)
    | parameter => simp [Canonical] at h

theorem Readable.group {fence : Fence} {inner : List Shape} (h : (group fence inner).Readable) :
    inner ≠ [] ∧ ∀ f ∈ inner, f.Readable := by
  rcases h with h | ⟨place, h⟩
  · cases h
  · exact (canonical_group.mp h).2.readable

theorem Readable.script {marker : Marker} {operand : Shape} (h : (script marker operand).Readable) :
    operand.isAtomic = true ∧ operand.Readable := by
  rcases h with h | ⟨place, h⟩
  · cases h
  · cases place with
    | chain closer =>
      have hoperand := canonical_script.mp h
      exact ⟨hoperand.isAtomic, Or.inr ⟨_, hoperand⟩⟩
    | operand | parameter => simp [Canonical] at h

theorem Readable.command (h : (command name parameters).Readable) :
    (isMark name || isWord name) = true ∧ (isMark name = true → parameters = []) ∧
      ∀ p ∈ parameters, p.isGroup = true ∧ p.Readable := by
  rcases h with h | ⟨place, h⟩
  · cases h
  · obtain ⟨-, ⟨hname, rfl⟩ | ⟨hname, hall⟩⟩ := canonical_command.mp h
    · simp [hname]
    · refine ⟨by simp [hname], fun hmark => ?_, fun p hp => ⟨?_, hall.readable p hp⟩⟩
      · rw [isWord_of_isMark hmark] at hname
        cases hname
      · exact (allCanonical_iff.mp hall p hp).isGroup

theorem Readable.delimiter {side : Delimiting} (h : (delimiter side name parameters).Readable) :
    ∀ p ∈ parameters, p.Readable :=
  fun p hp => (h.command.2.2 p (List.mem_cons_of_mem _ hp)).2

/-- The elements inside of a block and after it are read where they stand when it is spread out. -/
theorem readable_of_spreadOnto {body rest : List Shape}
    (h : ∀ f ∈ (block name parameters body).spreadOnto rest, f.Readable) :
    (∀ f ∈ spreadRow parameters, f.Readable) ∧ (∀ f ∈ spreadRow body, f.Readable) ∧
      ∀ f ∈ rest, f.Readable := by
  simp only [spreadOnto, List.forall_mem_cons, List.forall_mem_append] at h
  obtain ⟨hopen, hbody, hclose, hrest⟩ := h
  refine ⟨hopen.delimiter, ?_, ?_⟩
  · by_cases hempty : spreadRow body = [.empty]
    · simp [hempty, Readable]
    · rwa [contents_of_ne hempty] at hbody
  · rw [← List.takeWhile_append_dropWhile (p := isGroup) (l := rest), List.forall_mem_append]
    exact ⟨hclose.delimiter, hrest⟩

mutual

/-- A resolved element that can be read once it is spread is neat. -/
theorem neat_of_readable : ∀ {f : Shape}, (f.Regular fun name => side? name = none) →
    f.isBlock = false → f.spread.Readable → f.Neat
  | .literal text, _, _, h => by
    rw [Neat]
    simp only [spread, spreadOnto] at h
    exact h.literal
  | .empty, _, _, _ => neat_empty
  | .group fence inner, hregular, _, h => by
    rw [Regular] at hregular
    rw [spread_group] at h
    rw [Neat]
    refine ⟨?_, neatRow_of_readable hregular h.group.2⟩
    rintro rfl
    exact h.group.1 spreadRow_nil
  | .script marker operand, hregular, _, h => by
    rw [Regular] at hregular
    have hblock := Plan.isBlock_of_isAtomic hregular.1
    rw [spread_script _ hblock] at h
    rw [Neat]
    exact ⟨hregular.1, neat_of_readable hregular.2 hblock h.script.2⟩
  | .command name parameters, hregular, _, h => by
    rw [Regular] at hregular
    rw [spread_command] at h
    rw [Neat, isCommandName, hregular.1, h.command.1]
    exact ⟨rfl, fun hmark => eq_nil_of_spreadRow (h.command.2.1 hmark), hregular.2.1,
      neatRow_of_readable hregular.2.2 fun f hf => (h.command.2.2 f hf).2⟩
  | .block .., _, hblock, _ => by cases hblock

theorem neatRow_of_readable : ∀ {fs : List Shape}, Resolved fs →
    (∀ f ∈ spreadRow fs, f.Readable) → NeatRow fs
  | [], _, _ => neatRow_nil
  | .block name parameters body :: fs, hresolved, h => by
    rw [Resolved, regularRow_cons, Regular] at hresolved
    obtain ⟨⟨hname, hgroups, hparameters, hne, hbody⟩, hfs⟩ := hresolved
    rw [spreadRow_cons] at h
    obtain ⟨h₁, h₂, h₃⟩ := readable_of_spreadOnto h
    rw [neatRow_cons, Neat]
    exact ⟨⟨hname, hgroups, neatRow_of_readable hparameters h₁, hne,
      neatRow_of_readable hbody h₂⟩, neatRow_of_readable hfs h₃⟩
  | .literal _ :: fs, hresolved, h | .empty :: fs, hresolved, h | .group .. :: fs, hresolved, h
  | .script .. :: fs, hresolved, h | .command .. :: fs, hresolved, h => by
    rw [Resolved, regularRow_cons] at hresolved
    rw [spreadRow_cons, spreadOnto_eq rfl, List.forall_mem_cons] at h
    exact neatRow_cons.mpr ⟨neat_of_readable hresolved.1 rfl h.1, neatRow_of_readable hresolved.2 h.2⟩

end

/-- What is read is neat. -/
theorem neatRow_of_canonical (hresolved : Resolved fs) (h : CanonicalChain none (spreadRow fs)) :
    NeatRow fs :=
  neatRow_of_readable hresolved h.readable.2

/-! ## What is filled in -/

section

variable {arguments : List Shape}

theorem Neat.argumentElements (h : f.Neat) : NeatRow f.argumentElements := by
  cases f with
  | group fence inner =>
    rw [Neat, neatRow_iff] at h
    rw [Shape.argumentElements, neatRow_iff]
    exact fun g hg => h.2 g (List.mem_of_mem_filter hg)
  | _ => exact neatRow_nil

/-- An argument of a neat use is neat. -/
theorem NeatRow.argument? (h : NeatRow arguments)
    (hsome : Shape.argument? arguments index = some fs) : NeatRow fs := by
  cases index with
  | zero => cases hsome
  | succ i =>
    obtain ⟨f, hf, rfl⟩ := Option.map_eq_some_iff.mp hsome
    exact (neatRow_iff.mp h f (List.mem_of_getElem? hf)).argumentElements

theorem isAtomic_asOperand (fs : List Shape) : (asOperand fs).isAtomic = true := by
  unfold asOperand
  split
  · split
    · assumption
    · rfl
  · rfl

theorem NeatRow.asOperand (h : NeatRow fs) : (Shape.asOperand fs).Neat := by
  unfold Shape.asOperand
  split
  · rw [neatRow_cons] at h
    split
    · exact h.1
    · rw [Neat]
      exact ⟨by simp, by simpa using h.1⟩
  · rw [Neat]
    exact ⟨chain_ne_nil _, neatRow_chain.mpr h⟩

end

/-- Pieces of text that could have been read. -/
def NeatPieces (pieces : List Piece) : Prop :=
  ∀ run, .text run ∈ pieces → run ≠ [] ∧ Written none run

theorem neatPieces_cons {run : List Char} (hne : run ≠ []) (hrun : Written none run)
    (h : NeatPieces pieces) : NeatPieces (.text run :: pieces) := by
  intro run' hmem
  rcases List.mem_cons.mp hmem with heq | hmem
  · obtain rfl := Piece.text.inj heq
    exact ⟨hne, hrun⟩
  · exact h run' hmem

/-- A character in front of pieces starts a piece of text. -/
theorem NeatPieces.exists_consChar (h : NeatPieces pieces) (c : Char) :
    ∃ run rest, Piece.consChar c pieces = .text (c :: run) :: rest ∧ Written none run ∧
      NeatPieces rest := by
  unfold Piece.consChar
  split
  · rename_i run rest
    exact ⟨run, rest, rfl, (h run List.mem_cons_self).2,
      fun run' hmem => h run' (List.mem_cons_of_mem _ hmem)⟩
  · exact ⟨[], pieces, rfl, .nil, h⟩

theorem isPlain_of_digit (h : argumentDigit? c = some index) : isPlain c = true := by
  have hc : '1' ≤ c ∧ c ≤ '9' := by
    unfold argumentDigit? at h
    split at h
    · rename_i hc
      simpa using hc
    · cases h
  rw [isPlain_iff]
  rintro s rfl
  revert hc
  cases s <;> decide

/-- What comes after a character of text could have been read alone. -/
theorem Written.tail (h : Written closer (c :: cs)) (hc : isPlain c = true) :
    Written closer cs := by
  cases h with
  | plain _ h | bracket _ _ h => exact h
  | escape s _ => simp [isPlain_char] at hc

/-- A literal is split where no escape is cut. -/
theorem Written.neatPieces : ∀ {cs : List Char}, Written none cs → NeatPieces (Piece.split cs)
  | [], _ => by simp [Piece.split, NeatPieces]
  | [c], h => by
    intro run hrun
    obtain rfl := Piece.text.inj (List.mem_singleton.mp hrun)
    exact ⟨by simp, h⟩
  | c :: d :: rest, h => by
    rw [Piece.split]
    split
    · rename_i index hindex
      split at hindex
      · rename_i hc
        subst hc
        have htail : Written none rest := (h.tail rfl).tail (isPlain_of_digit hindex)
        intro run hrun
        exact htail.neatPieces run (List.mem_of_ne_of_mem (by simp) hrun)
      · cases hindex
    · cases h with
      | plain hc h =>
        obtain ⟨run, rest, heq, hrun, hrest⟩ := h.neatPieces.exists_consChar c
        rw [heq]
        exact neatPieces_cons (by simp) (.plain hc hrun) hrest
      | bracket hs hne h =>
        obtain ⟨run, rest, heq, hrun, hrest⟩ := h.neatPieces.exists_consChar _
        rw [heq]
        exact neatPieces_cons (by simp) (.bracket hs hne hrun) hrest
      | escape s h =>
        -- The second character of an escape is no hash sign.
        have hsplit : Piece.split (s.char :: rest) = Piece.consChar s.char (Piece.split rest) := by
          cases rest with
          | nil => rfl
          | cons e rest => rw [Piece.split, if_neg (by cases s <;> decide)]
        obtain ⟨run, rest', heq, hrun, hrest⟩ := h.neatPieces.exists_consChar s.char
        rw [hsplit, heq]
        exact neatPieces_cons (by simp) (.escape s hrun) hrest
termination_by cs => cs.length

section

variable {arguments : List Shape} (harguments : NeatRow arguments)

include harguments

/-- Pieces of a neat text are filled in neatly. -/
theorem NeatPieces.filledPieces (h : NeatPieces pieces) (hfilled : FilledPieces arguments pieces gs) :
    NeatRow gs := by
  induction hfilled with
  | nil => exact neatRow_nil
  | text _ ih =>
    obtain ⟨hne, hwritten⟩ := h _ List.mem_cons_self
    rw [neatRow_cons, Neat, String.toList_ofList]
    refine ⟨⟨fun heq => hne ?_, hwritten⟩, ih fun run hrun => h run (List.mem_cons_of_mem _ hrun)⟩
    simpa using congrArg String.toList heq
  | argument helements _ ih =>
    exact neatRow_append.mpr ⟨harguments.argument? helements,
      ih fun run hrun => h run (List.mem_cons_of_mem _ hrun)⟩

/-- A text that could be read is filled in neatly. -/
theorem Written.fillText {text : List Char} (h : Written none text) (hne : text ≠ [])
    (hsome : Shape.fillText arguments text = some gs) : NeatRow gs := by
  rw [Shape.fillText] at hsome
  split at hsome
  · obtain ⟨fs, hfs, heq⟩ := Option.bind_eq_some_iff.mp hsome
    obtain rfl := Option.some.inj heq
    exact neatRow_chain.mpr (h.neatPieces.filledPieces harguments (Shape.filledPieces hfs))
  · obtain rfl := Option.some.inj hsome
    rw [neatRow_cons, Neat, String.toList_ofList]
    refine ⟨⟨fun heq => hne ?_, h⟩, neatRow_nil⟩
    simpa using congrArg String.toList heq

/-- What is neat is filled in neatly. -/
theorem fills_neat : Fills arguments (fun f gs => f.Neat → NeatRow gs)
    (fun fs gs => NeatRow fs → NeatRow gs) where
  literal {text gs} hsome h := by
    rw [Neat] at h
    exact h.2.fillText harguments (fun heq => h.1 (String.toList_eq_nil_iff.mp heq)) hsome
  empty _ := by simp
  group fence fs gs hfs ih h := by
    rw [Neat] at h
    rw [neatRow_cons, Neat]
    exact ⟨⟨Plan.fillRow_ne_nil hfs h.1, ih h.2⟩, neatRow_nil⟩
  script marker f g hf ih h := by
    rw [Neat] at h
    rw [neatRow_cons, Neat]
    exact ⟨⟨Plan.isAtomic_of_fillInside h.1 hf, (neatRow_cons.mp (ih h.2)).1⟩, neatRow_nil⟩
  command name fs gs hfs ih h := by
    rw [Neat] at h
    obtain ⟨hname, hmark, hgroups, hparameters⟩ := h
    rw [neatRow_cons, Neat]
    refine ⟨⟨hname, fun h => ?_, (Plan.fills_form.fillAll hfs).2 hgroups, ih hparameters⟩,
      neatRow_nil⟩
    rw [hmark h, Shape.fillAll] at hfs
    exact (Option.some.inj hfs).symm
  block name fs gs fs' gs' hfs hfs' ih ih' h := by
    rw [Neat] at h
    obtain ⟨hname, hgroups, hparameters, hne, hbody⟩ := h
    rw [neatRow_cons, Neat]
    exact ⟨⟨hname, (Plan.fills_form.fillAll hfs).2 hgroups, ih hparameters,
      Plan.fillRow_ne_nil hfs' hne, ih' hbody⟩, neatRow_nil⟩
  nil h := h
  cons {f fs gs gs'} ih ih' h := by
    rw [neatRow_cons] at h
    exact neatRow_append.mpr ⟨ih h.1, ih' h.2⟩
  placeholder marker text c rest index operand between fs gs htext hdigit hoperand hbetween ih
      h := by
    simp only [neatRow_cons, Neat, htext] at h
    have hrest : NeatRow between := by
      rw [fillRest] at hbetween
      split at hbetween
      · obtain rfl := Option.some.inj hbetween
        exact neatRow_nil
      · rename_i hempty
        exact (h.2.1.2.tail (isPlain_of_digit hdigit)).fillText harguments (by simpa using hempty)
          hbetween
    rw [neatRow_cons, Neat, neatRow_chain, neatRow_append]
    exact ⟨⟨isAtomic_asOperand _, (harguments.argument? hoperand).asOperand⟩, hrest, ih h.2.2⟩

end

/-! ## What is defined -/

theorem neat_withBody {arity : Nat} (hf : f.Neat) (h : Macro.withBody name arity f = .ok m) :
    NeatRow m.body := by
  unfold Macro.withBody at h
  split at h
  · obtain rfl := Except.ok.inj h
    rw [Neat] at hf
    exact hf.2
  · cases h

theorem neat_ofGroups (hfs : NeatRow fs) (h : Macro.ofGroups name fs = .ok m) : NeatRow m.body := by
  unfold Macro.ofGroups at h
  split at h
  · exact neat_withBody (neatRow_cons.mp hfs).1 h
  · rename_i count body
    simp only [neatRow_cons] at hfs
    obtain ⟨arity, -, h⟩ := exists_of_bind_eq_ok h
    exact neat_withBody hfs.2.1 h
  · cases h

/-- A macro that is read off a neat chain is neat, and so is the rest. -/
theorem neat_read {rest : List Shape} (hparameters : NeatRow parameters) (hfs : NeatRow fs)
    (h : Macro.read parameters fs = .ok (m, rest)) : NeatRow m.body ∧ NeatRow rest := by
  unfold Macro.read at h
  split at h
  · obtain ⟨name, -, h⟩ := exists_of_bind_eq_ok h
    obtain ⟨m', hgroups, h⟩ := exists_of_bind_eq_ok h
    obtain ⟨rfl, rfl⟩ := Prod.mk.inj (Except.ok.inj h)
    exact ⟨neat_ofGroups (neatRow_cons.mp hparameters).2 hgroups, hfs⟩
  · obtain ⟨name, -, h⟩ := exists_of_bind_eq_ok h
    obtain ⟨m', hgroups, h⟩ := exists_of_bind_eq_ok h
    obtain ⟨rfl, rfl⟩ := Prod.mk.inj (Except.ok.inj h)
    rw [neatRow_cons, Neat] at hfs
    exact ⟨neat_ofGroups hfs.1.2.2.2 hgroups, hfs.2⟩
  · cases h

/-- An instance of a neat macro is neat. -/
theorem neat_instantiate {arguments : List Shape} (hm : NeatRow m.body)
    (harguments : NeatRow arguments) (h : m.instantiate arguments = .ok fs) : NeatRow fs :=
  (fills_neat harguments).fillRow (Macro.fillRow_of_instantiate h) hm

end Shape

end Formulary
