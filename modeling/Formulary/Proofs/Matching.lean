import Formulary.Proofs.Resolution

/-!
# Blocks as matched brackets

What resolving blocks means, said of each chain on its own. Among the elements of a chain the
delimiting commands are brackets, and a block is a bracket with its partner and what stands between
them.

* `Shape.Matched`: when the blocks of a formula can be resolved. Each condition speaks of one command
  or of one chain; nothing is counted across chains.
* `Shape.Resolves`: what the formula becomes. The rule for a block is the only one that takes a
  delimiting command.

On what a reader gives, `Resolves` relates a formula with blocks to the one it spreads to
(`Resolves.spreadRow`, `resolves_spreadRow`), and it is defined exactly where `Matched` holds
(`matched_iff`). The pass over the whole formula, with its one stack, is tied to it by these.
-/

namespace Formulary

open BlockMarker (side? isName)

namespace Shape

variable {f f' : Shape} {fs parameters : List Shape} {name : String} {side : Delimiting}

/-! ## Brackets -/

mutual

/-- All elements below an element. -/
def under : Shape → List Shape
  | .literal _ | .empty => []
  | .group _ inner => deep inner
  | .script _ operand => operand :: operand.under
  | .command _ parameters => deep parameters
  | .block _ parameters body => deep parameters ++ deep body

/-- All elements of a chain and below it. -/
def deep : List Shape → List Shape
  | [] => []
  | f :: fs => f :: (f.under ++ deep fs)

end

@[simp] theorem deep_nil : deep [] = [] := by rw [deep]

@[simp] theorem deep_cons (f : Shape) (fs : List Shape) :
    deep (f :: fs) = f :: (f.under ++ deep fs) := by rw [deep]

@[simp] theorem deep_append (fs gs : List Shape) : deep (fs ++ gs) = deep fs ++ deep gs := by
  induction fs with
  | nil => simp
  | cons f fs ih => simp [ih]

/-- The bracket that an element is: a delimiting command with the name it says. -/
def bracket? : Shape → Option (Delimiting × String)
  | .command word parameters =>
    (side? word).map fun side => (side, ((parameters.head?.bind (soleText .braces)).getD ""))
  | _ => none

/-- The brackets of a chain, without those of chains below. -/
def brackets (fs : List Shape) : List (Delimiting × String) := fs.filterMap bracket?

/-- Words of brackets in which each has a partner of the same name. -/
inductive WellNested : List (Delimiting × String) → Prop
  | nil : WellNested []
  | pair {name : String} {inner rest : List (Delimiting × String)} : WellNested inner →
      WellNested rest → WellNested ((.opens, name) :: (inner ++ (.closes, name) :: rest))

/-- When the blocks of a formula without blocks can be resolved. -/
structure Matched (fs : List Shape) : Prop where
  /-- A delimiting command says a proper name, alone in braces. -/
  named : ∀ {word parameters side}, .command word parameters ∈ deep fs → side? word = some side →
    ∃ name rest, parameters = .group .braces [.literal name] :: rest ∧ isName name = true
  /-- It is no operand. -/
  operands : ∀ {marker word parameters}, .script marker (.command word parameters) ∈ deep fs →
    side? word = none
  /-- The brackets of the formula itself are well nested, -/
  outer : WellNested (brackets fs)
  /-- and so are those of the chain in a group. -/
  inner : ∀ {fence inner}, .group fence inner ∈ deep fs → WellNested (brackets inner)

mutual

/-- What an element becomes that is no bracket. -/
inductive ResolvesInside : Shape → Shape → Prop
  | literal (text : String) : ResolvesInside (.literal text) (.literal text)
  | empty : ResolvesInside .empty .empty
  | group (fence : Fence) {inner inner' : List Shape} : Resolves inner inner' →
      ResolvesInside (.group fence inner) (.group fence inner')
  | script (marker : Marker) {operand operand' : Shape} : ResolvesInside operand operand' →
      ResolvesInside (.script marker operand) (.script marker operand')
  | command {word : String} {parameters parameters' : List Shape} : side? word = none →
      Resolves parameters parameters' →
      ResolvesInside (.command word parameters) (.command word parameters')

/-- What a chain becomes: a block in the place of a bracket, its partner and everything between, with
the other parameters of the partner after it. -/
inductive Resolves : List Shape → List Shape → Prop
  | nil : Resolves [] []
  | cons {f f' : Shape} {fs fs' : List Shape} : ResolvesInside f f' → Resolves fs fs' →
      Resolves (f :: fs) (f' :: fs')
  | block {name : String} {parameters parameters' mid mid' extras extras' post post' : List Shape} :
      isName name = true → Resolves parameters parameters' → Resolves mid mid' →
      Resolves extras extras' → Resolves post post' →
      Resolves (delimiter .opens name parameters :: (mid ++ delimiter .closes name extras :: post))
        (.block name parameters' (chain mid') :: (extras' ++ post'))

end

theorem bracket?_delimiter (side : Delimiting) (name : String) (parameters : List Shape) :
    (delimiter side name parameters).bracket? = some (side, name) := by
  cases side <;> rfl

theorem bracket?_of_isGroup (h : f.isGroup = true) : f.bracket? = none := by
  cases f <;> first | rfl | cases h

theorem ResolvesInside.bracket? (h : ResolvesInside f f') : f.bracket? = none := by
  cases h with
  | command hword => simp [Shape.bracket?, hword]
  | literal | empty | group | script => rfl

theorem ResolvesInside.isGroup_eq (h : ResolvesInside f f') : f'.isGroup = f.isGroup := by
  cases h <;> rfl

theorem ResolvesInside.isAtomic_eq (h : ResolvesInside f f') : f'.isAtomic = f.isAtomic := by
  cases h <;> rfl

theorem ResolvesInside.isBlock_eq (h : ResolvesInside f f') : f'.isBlock = false := by
  cases h <;> rfl

/-- Groups stay groups. -/
theorem Resolves.isGroup {fs' : List Shape} (h : Resolves fs fs')
    (hfs : ∀ f ∈ fs, f.isGroup = true) : ∀ f ∈ fs', f.isGroup = true := by
  induction fs generalizing fs' with
  | nil =>
    cases h
    simp
  | cons f fs ih =>
    rw [List.forall_mem_cons] at hfs
    cases h with
    | cons hf hrest =>
      rw [List.forall_mem_cons]
      exact ⟨hf.isGroup_eq.trans hfs.1, ih hrest hfs.2⟩
    | block => cases hfs.1

/-! ## Resolving is the converse of spreading -/

theorem TameChain.of_groups (hrow : TameRow fs) (hgroups : ∀ f ∈ fs, f.isGroup = true) :
    TameChain fs := by
  have hcalm := calm_groups hgroups List.isChain_nil (by simp)
  rw [List.append_nil] at hcalm
  exact ⟨hrow, hcalm⟩

theorem Tame.of_delimiter (h : (delimiter side name parameters).Tame) :
    TameChain parameters ∧ ∀ p ∈ parameters, p.isGroup = true := by
  simp only [delimiter, Tame, tameRow_cons, List.forall_mem_cons] at h
  obtain ⟨⟨-, hrow⟩, -, hgroups⟩ := h
  exact ⟨.of_groups hrow hgroups, hgroups⟩

mutual

theorem ResolvesInside.spread_regular : ∀ {f f' : Shape}, ResolvesInside f f' → f.Tame →
    f'.spread = f ∧ f'.Regular fun name => side? name = none
  | _, _, .literal _, _ | _, _, .empty, _ => by simp [spread, spreadOnto, Regular]
  | _, _, .group _ h, htame => by
    rw [Tame] at htame
    obtain ⟨hspread, hresolved⟩ := Resolves.spread_regular h htame
    rw [spread_group, hspread, Regular]
    exact ⟨rfl, hresolved⟩
  | _, _, .script _ h, htame => by
    rw [Tame] at htame
    obtain ⟨hspread, hregular⟩ := ResolvesInside.spread_regular h htame.2
    rw [spread_script _ h.isBlock_eq, hspread, Regular]
    exact ⟨rfl, h.isAtomic_eq.trans htame.1, hregular⟩
  | _, _, .command hword h, htame => by
    rw [Tame] at htame
    obtain ⟨hspread, hresolved⟩ := Resolves.spread_regular h (.of_groups htame.1 htame.2)
    rw [spread_command, hspread, Regular]
    exact ⟨rfl, hword, h.isGroup htame.2, hresolved⟩

/-- What a chain becomes is resolved and spreads to the chain. -/
theorem Resolves.spread_regular : ∀ {fs fs' : List Shape}, Resolves fs fs' → TameChain fs →
    Shape.spreadRow fs' = fs ∧ Resolved fs'
  | _, _, .nil, _ => by simp [Resolved]
  | _, _, .cons hf hfs, ⟨hrow, hchain⟩ => by
    rw [tameRow_cons] at hrow
    obtain ⟨hspread, hregular⟩ := ResolvesInside.spread_regular hf hrow.1
    obtain ⟨hspread', hresolved⟩ := Resolves.spread_regular hfs ⟨hrow.2, hchain.tail⟩
    rw [spreadRow_cons, spreadOnto_eq hf.isBlock_eq, hspread, hspread', Resolved, regularRow_cons]
    exact ⟨rfl, hregular, hresolved⟩
  | _, _, @Resolves.block name parameters parameters' mid mid' extras extras' post post' hname
      hparameters hmid hextras hpost, htame => by
    have ⟨hrow, hchain⟩ := htame
    simp only [tameRow_cons, tameRow_append] at hrow
    obtain ⟨hopen, hrowmid, hclose, hrowpost⟩ := hrow
    rw [List.isChain_cons] at hchain
    obtain ⟨hchainmid, hchainclose, -⟩ := List.isChain_append.mp hchain.2
    obtain ⟨hps, hpsgroups⟩ := hopen.of_delimiter
    obtain ⟨hqs, hqsgroups⟩ := hclose.of_delimiter
    obtain ⟨hps', hpsresolved⟩ := Resolves.spread_regular hparameters hps
    obtain ⟨hmid', hmidresolved⟩ := Resolves.spread_regular hmid ⟨hrowmid, hchainmid⟩
    obtain ⟨hqs', hqsresolved⟩ := Resolves.spread_regular hextras hqs
    obtain ⟨hpost', hpostresolved⟩ := Resolves.spread_regular hpost ⟨hrowpost, hchainclose.tail⟩
    -- With the delimiting commands still in place, spreading undoes each part on its own.
    have hparts : Shape.spreadRow (delimiter .opens name parameters' ::
        (mid' ++ delimiter .closes name extras' :: post')) =
        delimiter .opens name parameters :: (mid ++ delimiter .closes name extras :: post) := by
      rw [spreadRow_cons, spreadOnto_delimiter, spreadRow_append (by simp [delimiter, Shape.isGroup]),
        spreadRow_cons, spreadOnto_delimiter, hps', hmid', hqs', hpost']
    constructor
    · rw [spreadRow_splice (by rw [hparts]; exact htame), hparts]
    · simp only [Resolved, regularRow_cons, regularRow_append, Regular, regularRow_chain]
      exact ⟨⟨hname, hparameters.isGroup hpsgroups, hpsresolved, chain_ne_nil _, hmidresolved⟩,
        hqsresolved, hpostresolved⟩

end

/-- Groups at the start of a chain are resolved one by one. -/
theorem Resolves.split_groups {es gs : List Shape} (h : Resolves (es ++ fs) gs)
    (hes : ∀ e ∈ es, e.isGroup = true) :
    ∃ es' fs', gs = es' ++ fs' ∧ Resolves es es' ∧ Resolves fs fs' := by
  induction es generalizing gs with
  | nil => exact ⟨[], gs, rfl, .nil, h⟩
  | cons e es ih =>
    rw [List.forall_mem_cons] at hes
    generalize hwhole : e :: es ++ fs = whole at h
    cases h with
    | nil => cases hwhole
    | cons he hrest =>
      obtain ⟨rfl, rfl⟩ := List.cons.inj hwhole
      obtain ⟨es', fs', rfl, hes', hfs'⟩ := ih hrest hes.2
      exact ⟨_ :: es', fs', rfl, .cons he hes', hfs'⟩
    | block =>
      obtain rfl := (List.cons.inj hwhole).1
      cases hes.1

theorem Resolves.cons_spread (hblock : f.isBlock = false)
    (hf : f.spread.Tame → ResolvesInside f.spread f)
    (hfs : TameChain (Shape.spreadRow fs) → Resolves (Shape.spreadRow fs) fs)
    (htame : TameChain (Shape.spreadRow (f :: fs))) :
    Resolves (Shape.spreadRow (f :: fs)) (f :: fs) := by
  rw [spreadRow_cons, spreadOnto_eq hblock] at htame ⊢
  obtain ⟨hrow, hchain⟩ := htame
  rw [tameRow_cons] at hrow
  exact .cons (hf hrow.1) (hfs ⟨hrow.2, hchain.tail⟩)

mutual

/-- A resolved element is what its spread form resolves to. -/
theorem resolvesInside_spread : ∀ {f : Shape}, (f.Regular fun name => side? name = none) →
    f.isBlock = false → f.spread.Tame → ResolvesInside f.spread f
  | .literal text, _, _, _ => by
    simp only [spread, spreadOnto]
    exact .literal text
  | .empty, _, _, _ => by
    simp only [spread, spreadOnto]
    exact .empty
  | .group fence inner, h, _, htame => by
    rw [Regular] at h
    rw [spread_group] at htame ⊢
    rw [Tame] at htame
    exact .group fence (resolves_spreadRow h htame)
  | .script marker operand, h, _, htame => by
    rw [Regular] at h
    have hblock := Plan.isBlock_of_isAtomic h.1
    rw [spread_script _ hblock] at htame ⊢
    rw [Tame] at htame
    exact .script marker (resolvesInside_spread h.2 hblock htame.2)
  | .command word parameters, h, _, htame => by
    rw [Regular] at h
    rw [spread_command] at htame ⊢
    rw [Tame] at htame
    exact .command h.1 (resolves_spreadRow h.2.2 (.of_groups htame.1 htame.2))

/-- A resolved formula is what the chain that it spreads to becomes. -/
theorem resolves_spreadRow : ∀ {fs : List Shape}, Resolved fs → TameChain (Shape.spreadRow fs) →
    Resolves (Shape.spreadRow fs) fs
  | [], _, _ => by
    rw [spreadRow_nil]
    exact .nil
  | .block name parameters body :: fs, h, htame => by
    rw [Resolved, regularRow_cons, Regular] at h
    obtain ⟨⟨hname, -, hparameters, hne, hbody⟩, hfs⟩ := h
    rw [spreadRow_cons] at htame ⊢
    have hrest := resolves_spreadRow hfs htame.of_spreadOnto
    have hmid := resolves_spreadRow hbody htame.of_body
    rw [spreadOnto] at htame ⊢
    have hopen := (tameRow_cons.mp htame.1).1
    have hps := resolves_spreadRow hparameters hopen.of_delimiter.1
    -- The groups after the block are those that the closing command had taken.
    rw [← List.takeWhile_append_dropWhile (p := Shape.isGroup) (l := Shape.spreadRow fs)] at hrest
    obtain ⟨extras, post, rfl, hextras, hpost⟩ :=
      hrest.split_groups fun e he => List.mem_takeWhile_imp he
    by_cases hempty : Shape.spreadRow body = [.empty]
    · rw [eq_empty_of_spreadRow hempty]
      have hnone : contents (Shape.spreadRow [.empty]) = [] := by simp [spreadOnto, contents]
      rw [hnone]
      exact .block hname hps .nil hextras hpost
    · have hblock := Resolves.block hname hps hmid hextras hpost
      rw [contents_of_ne hempty]
      rwa [chain_of_ne_nil hne] at hblock
  | .literal _ :: fs, h, htame | .empty :: fs, h, htame | .group .. :: fs, h, htame
  | .script .. :: fs, h, htame | .command .. :: fs, h, htame => by
    rw [Resolved, regularRow_cons] at h
    exact .cons_spread rfl (resolvesInside_spread h.1 rfl) (resolves_spreadRow h.2) htame

end

/-! ## What can be resolved -/

/-- What a formula that can be resolved asks of one element. -/
def Sits : Shape → Prop
  | .command word parameters => ∀ side, side? word = some side →
    ∃ name rest, parameters = .group .braces [.literal name] :: rest ∧ isName name = true
  | .script _ (.command word _) => side? word = none
  | .group _ inner => WellNested (brackets inner)
  | _ => True

theorem matched_iff_sits : Matched fs ↔ WellNested (brackets fs) ∧ ∀ f ∈ deep fs, f.Sits := by
  constructor
  · intro h
    refine ⟨h.outer, fun f hf => ?_⟩
    unfold Sits
    split
    · exact fun side hside => h.named hf hside
    · exact h.operands hf
    · exact h.inner hf
    · trivial
  · rintro ⟨houter, hall⟩
    exact ⟨fun hf hside => hall _ hf _ hside, fun hf => hall _ hf, houter, fun hf => hall _ hf⟩

@[simp] theorem brackets_append (fs gs : List Shape) :
    brackets (fs ++ gs) = brackets fs ++ brackets gs := by
  simp [brackets]

theorem brackets_groups (h : ∀ f ∈ fs, f.isGroup = true) : brackets fs = [] := by
  rw [brackets, List.filterMap_eq_nil_iff]
  exact fun f hf => bracket?_of_isGroup (h f hf)

theorem sits_delimiter (parameters : List Shape) (hname : isName name = true) :
    (delimiter side name parameters).Sits :=
  fun _ _ => ⟨name, parameters, rfl, hname⟩

theorem under_delimiter (side : Delimiting) (name : String) (parameters : List Shape) :
    (delimiter side name parameters).under =
      .group .braces [.literal name] :: .literal name :: deep parameters := by
  simp [delimiter, under]

theorem forall_under_delimiter (side : Delimiting) (name : String)
    (h : ∀ f ∈ deep parameters, f.Sits) : ∀ f ∈ (delimiter side name parameters).under, f.Sits := by
  simp only [under_delimiter, List.forall_mem_cons]
  exact ⟨.nil, trivial, h⟩

mutual

/-- What can be resolved has its commands in place. -/
theorem ResolvesInside.sits : ∀ {f f' : Shape}, ResolvesInside f f' →
    f.Sits ∧ ∀ g ∈ f.under, g.Sits
  | _, _, .literal _ | _, _, .empty => by simp [Sits, under]
  | _, _, .group _ h => by
    rw [Sits, under]
    exact Resolves.sits h
  | _, _, .script _ h => by
    obtain ⟨hsits, hunder⟩ := ResolvesInside.sits h
    rw [under, List.forall_mem_cons]
    refine ⟨?_, hsits, hunder⟩
    cases h with
    | command hword => exact hword
    | literal | empty | group | script => trivial
  | _, _, .command hword h => by
    rw [under]
    refine ⟨fun side hside => ?_, (Resolves.sits h).2⟩
    rw [hword] at hside
    cases hside

/-- What is resolved was matched. -/
theorem Resolves.sits : ∀ {fs fs' : List Shape}, Resolves fs fs' →
    WellNested (brackets fs) ∧ ∀ g ∈ deep fs, g.Sits
  | _, _, .nil => by
    rw [deep_nil]
    exact ⟨.nil, by simp⟩
  | _, _, .cons hf hfs => by
    obtain ⟨hsits, hunder⟩ := ResolvesInside.sits hf
    obtain ⟨hnested, hdeep⟩ := Resolves.sits hfs
    rw [brackets, List.filterMap_cons_none hf.bracket?, deep_cons, List.forall_mem_cons,
      List.forall_mem_append]
    exact ⟨hnested, hsits, hunder, hdeep⟩
  | _, _, @Resolves.block name parameters _ mid _ extras _ post _ hname hparameters hmid hextras
      hpost => by
    obtain ⟨-, hps⟩ := Resolves.sits hparameters
    obtain ⟨hnested, hmid⟩ := Resolves.sits hmid
    obtain ⟨-, hqs⟩ := Resolves.sits hextras
    obtain ⟨hnested', hpost⟩ := Resolves.sits hpost
    have hbrackets : brackets (delimiter .opens name parameters ::
        (mid ++ delimiter .closes name extras :: post)) =
        (.opens, name) :: (brackets mid ++ (.closes, name) :: brackets post) := by
      rw [brackets, List.filterMap_cons_some (bracket?_delimiter ..), List.filterMap_append,
        List.filterMap_cons_some (bracket?_delimiter ..)]
      rfl
    rw [hbrackets]
    refine ⟨.pair hnested hnested', ?_⟩
    simp only [deep_cons, deep_append, List.forall_mem_cons, List.forall_mem_append]
    exact ⟨sits_delimiter parameters hname, forall_under_delimiter _ name hps, hmid,
      sits_delimiter extras hname, forall_under_delimiter _ name hqs, hpost⟩

end

/-- An element that can be resolved as it is, or a bracket whose parameters can. -/
def Solvable (f : Shape) : Prop :=
  (f.bracket? = none → ∃ f', ResolvesInside f f') ∧
    ∀ side name, f.bracket? = some (side, name) → isName name = true ∧
      ∃ parameters parameters', f = delimiter side name parameters ∧ Resolves parameters parameters'

theorem exists_resolves_append {pre rest rest' : List Shape}
    (hpre : ∀ f ∈ pre, f.bracket? = none) (hsolvable : ∀ f ∈ pre, f.Solvable)
    (h : Resolves rest rest') : ∃ fs', Resolves (pre ++ rest) fs' := by
  induction pre with
  | nil => exact ⟨rest', h⟩
  | cons f fs ih =>
    rw [List.forall_mem_cons] at hpre hsolvable
    obtain ⟨f', hf⟩ := hsolvable.1.1 hpre.1
    obtain ⟨fs', hfs⟩ := ih hpre.2 hsolvable.2
    exact ⟨f' :: fs', .cons hf hfs⟩

/-- The partner of a bracket is found in the word, and what stands between them with it. -/
theorem WellNested.exists_resolves {w : List (Delimiting × String)} (h : WellNested w) :
    ∀ {fs : List Shape}, brackets fs = w → (∀ f ∈ fs, f.Solvable) → ∃ fs', Resolves fs fs' := by
  induction h with
  | nil =>
    intro fs hbrackets hsolvable
    rw [brackets, List.filterMap_eq_nil_iff] at hbrackets
    simpa using exists_resolves_append hbrackets hsolvable .nil
  | @pair name inner rest _ _ ihinner ihrest =>
    intro fs hbrackets hsolvable
    obtain ⟨pre, first, fs, rfl, hpre, hfirst, hbrackets⟩ := List.filterMap_eq_cons_iff.mp hbrackets
    obtain ⟨mid, fs, rfl, hmid, hbrackets⟩ := List.filterMap_eq_append_iff.mp hbrackets
    obtain ⟨mid', last, post, rfl, hmid', hlast, hpost⟩ := List.filterMap_eq_cons_iff.mp hbrackets
    simp only [List.forall_mem_append, List.forall_mem_cons] at hsolvable
    obtain ⟨hsolpre, hsolfirst, hsolmid, hsolmid', hsollast, hsolpost⟩ := hsolvable
    obtain ⟨hname, parameters, parameters', rfl, hparameters⟩ := hsolfirst.2 _ _ hfirst
    obtain ⟨-, extras, extras', rfl, hextras⟩ := hsollast.2 _ _ hlast
    have hbetween : brackets (mid ++ mid') = inner := by
      have hnone : brackets mid' = [] := List.filterMap_eq_nil_iff.mpr hmid'
      rw [brackets_append, hnone, List.append_nil]
      exact hmid
    obtain ⟨between', hbetween'⟩ :=
      ihinner hbetween (List.forall_mem_append.mpr ⟨hsolmid, hsolmid'⟩)
    obtain ⟨post', hpost'⟩ := ihrest hpost hsolpost
    have hblock := Resolves.block hname hparameters hbetween' hextras hpost'
    rw [List.append_assoc] at hblock
    exact exists_resolves_append hpre hsolpre hblock

mutual

/-- A tame element with its commands in place can be resolved. -/
theorem solvable : ∀ {f : Shape}, f.Tame → f.Sits → (∀ g ∈ f.under, g.Sits) → f.Solvable
  | .literal text, _, _, _ => ⟨fun _ => ⟨_, .literal text⟩, fun _ _ h => by cases h⟩
  | .empty, _, _, _ => ⟨fun _ => ⟨_, .empty⟩, fun _ _ h => by cases h⟩
  | .group fence inner, htame, hsits, hunder => by
    rw [Tame] at htame
    rw [under] at hunder
    obtain ⟨inner', hinner⟩ := WellNested.exists_resolves hsits rfl (allSolvable htame.1 hunder)
    exact ⟨fun _ => ⟨_, .group fence hinner⟩, fun _ _ h => by cases h⟩
  | .script marker operand, htame, hsits, hunder => by
    rw [Tame] at htame
    rw [under, List.forall_mem_cons] at hunder
    have hbracket : operand.bracket? = none := by
      cases operand with
      | command word parameters =>
        have hword : side? word = none := hsits
        simp [bracket?, hword]
      | _ => rfl
    obtain ⟨operand', hoperand⟩ := (solvable htame.2 hunder.1 hunder.2).1 hbracket
    exact ⟨fun _ => ⟨_, .script marker hoperand⟩, fun _ _ h => by cases h⟩
  | .command word parameters, htame, hsits, hunder => by
    rw [Tame] at htame
    rw [under] at hunder
    have hall := allSolvable htame.1 hunder
    constructor
    · intro hbracket
      obtain ⟨parameters', hparameters⟩ :=
        WellNested.nil.exists_resolves (brackets_groups htame.2) hall
      exact ⟨_, .command (by simpa [bracket?] using hbracket) hparameters⟩
    · intro side name hbracket
      obtain ⟨side', hside, heq⟩ := Option.map_eq_some_iff.mp hbracket
      obtain ⟨name', rest, rfl, hname⟩ := hsits side' hside
      obtain ⟨rfl, rfl⟩ := Prod.mk.inj heq
      rw [List.forall_mem_cons] at hall
      obtain ⟨rest', hrest⟩ := WellNested.nil.exists_resolves
        (brackets_groups fun f hf => htame.2 f (List.mem_cons_of_mem _ hf)) hall.2
      refine ⟨hname, rest, rest', ?_, hrest⟩
      rw [Plan.side?_eq_some_iff.mp hside]
      rfl
  | .block .., htame, _, _ => by simp [Tame] at htame

theorem allSolvable : ∀ {fs : List Shape}, TameRow fs → (∀ g ∈ deep fs, g.Sits) →
    ∀ f ∈ fs, f.Solvable
  | [], _, _ => by simp
  | f :: fs, htame, hsits => by
    rw [tameRow_cons] at htame
    simp only [deep_cons, List.forall_mem_cons, List.forall_mem_append] at hsits ⊢
    exact ⟨solvable htame.1 hsits.1 hsits.2.1, allSolvable htame.2 hsits.2.2⟩

end

/-- A chain without blocks becomes something exactly if its brackets match. -/
theorem matched_iff (htame : TameRow fs) : Matched fs ↔ ∃ fs', Resolves fs fs' := by
  rw [matched_iff_sits]
  constructor
  · rintro ⟨hnested, hsits⟩
    exact hnested.exists_resolves rfl (allSolvable htame hsits)
  · rintro ⟨fs', h⟩
    exact h.sits

mutual

theorem Regular.forall_under {kind : String → Prop} : ∀ {f : Shape}, f.Regular kind →
    ∀ word parameters, .command word parameters ∈ f :: f.under → kind word
  | .literal _, _, _, _, h | .empty, _, _, _, h => by simp [under] at h
  | .group _ inner, hf, word, parameters, h => by
    rw [Regular] at hf
    rw [under] at h
    exact RegularRow.forall_deep hf word parameters (List.mem_of_ne_of_mem (by simp) h)
  | .script _ operand, hf, word, parameters, h => by
    rw [Regular] at hf
    rw [under] at h
    exact Regular.forall_under hf.2 word parameters (List.mem_of_ne_of_mem (by simp) h)
  | .command _ ps, hf, word, parameters, h => by
    rw [Regular] at hf
    rw [under] at h
    rcases List.mem_cons.mp h with heq | h
    · obtain ⟨rfl, rfl⟩ := command.inj heq
      exact hf.1
    · exact RegularRow.forall_deep hf.2.2 word parameters h
  | .block _ ps body, hf, word, parameters, h => by
    rw [Regular] at hf
    rw [under] at h
    rcases List.mem_append.mp (List.mem_of_ne_of_mem (by simp) h) with h | h
    · exact RegularRow.forall_deep hf.2.2.1 word parameters h
    · exact RegularRow.forall_deep hf.2.2.2.2 word parameters h

/-- All commands of a regular formula have names of its kind. -/
theorem RegularRow.forall_deep {kind : String → Prop} : ∀ {fs : List Shape}, RegularRow kind fs →
    ∀ word parameters, .command word parameters ∈ deep fs → kind word
  | [], _, _, _, h => by simp at h
  | f :: fs, hfs, word, parameters, h => by
    rw [regularRow_cons] at hfs
    rw [deep_cons, ← List.cons_append, List.mem_append] at h
    rcases h with h | h
    · exact Regular.forall_under hfs.1 word parameters h
    · exact RegularRow.forall_deep hfs.2 word parameters h

end

end Shape

open Shape

/-! ## Resolving again -/

namespace Plan

variable {noted : NodeId → Nat}

mutual

/-- A resolved element has no delimiting commands. -/
theorem markers_of_regular : ∀ {p : Plan}, (p.shape.Regular fun name => side? name = none) →
    delims noted p = [] ∧ gather (delims noted) p = []
  | .literal .., _ | .empty _, _ => by simp [gather]
  | .group _ _ inner, h => by
    rw [shape, Regular] at h
    rw [gather]
    exact ⟨rfl, rowMarkers_of_resolved h⟩
  | .script _ _ operand, h => by
    rw [shape, Regular] at h
    obtain ⟨hown, hmarkers⟩ := markers_of_regular h.2
    rw [gather, hown, hmarkers]
    exact ⟨rfl, rfl⟩
  | .command _ word ps, h => by
    rw [shape, Regular] at h
    rw [gather, delims, h.1]
    exact ⟨rfl, markersOf_of_resolved h.2.2⟩
  | .block _ _ ps body, h => by
    rw [shape, Regular] at h
    rw [gather, markersOf_of_resolved h.2.2.1, rowMarkers_of_resolved h.2.2.2.2]
    exact ⟨rfl, rfl⟩

theorem markersOf_of_resolved : ∀ {ps : List Plan}, Resolved (shapes ps) →
    gatherAll (delims noted) ps = []
  | [], _ => gatherAll_nil _
  | p :: ps, h => by
    rw [shapes_cons, Resolved, regularRow_cons] at h
    obtain ⟨hown, hmarkers⟩ := markers_of_regular h.1
    rw [gatherAll_cons, hown, hmarkers, markersOf_of_resolved h.2]
    rfl

theorem rowMarkers_of_resolved : ∀ {row : Row}, Resolved (rowShapes row) →
    gatherRow (delims noted) row = []
  | [], _ => gatherRow_nil _
  | (cell, p) :: row, h => by
    rw [rowShapes_cons, Resolved, regularRow_cons] at h
    obtain ⟨hown, hmarkers⟩ := markers_of_regular h.1
    rw [gatherRow_cons, hown, hmarkers, rowMarkers_of_resolved h.2]
    rfl

end

end Plan

open Plan

namespace Tree

/-- In a resolved formula there is nothing to pair up. -/
theorem resolveBlocks_resolved {t : Tree} {fs : List Shape} (h : t.Depicts fs) (hfs : Resolved fs) :
    resolveBlocks.run.run t = (.ok (), t) := by
  obtain ⟨row, hroot, hfits, hn, rfl⟩ := h
  obtain ⟨noted, hnoted⟩ := exists_noted hn 0
  have hnone : gatherRow (delims noted) row = [] := rowMarkers_of_resolved hfs
  have hcollect : BlockMarker.collect t = .ok [] := by
    rw [BlockMarker.collect_eq_ok_iff hroot hfits hn hnoted, hnone]
    simp
  rw [resolveBlocks, Edit.run_get_bind, hcollect]
  rfl

/-- Resolving blocks is matching brackets, chain by chain: it succeeds exactly if the brackets of the
formula match, and it gives the one formula that results. No delimiting command is left in it, and
resolving it again does not change the tree. -/
theorem resolveBlocks_eq_matching {s : String} {t : Tree} (h : parse s = .ok t) :
    ∃ fs, t.Depicts fs ∧
      ((∃ t', resolveBlocks.run.run t = (.ok (), t')) ↔ Matched fs) ∧
      ∀ t', resolveBlocks.run.run t = (.ok (), t') →
        ∃ gs, t'.Depicts gs ∧ (∀ hs, Resolves fs hs ↔ hs = gs) ∧
          (∀ word parameters, .command word parameters ∈ deep gs → side? word = none) ∧
          resolveBlocks.run.run t' = (.ok (), t') := by
  obtain ⟨fs, hfs, hcanonical, -⟩ := parse_sound h
  have htame := hcanonical.tameChain
  have hcomplete {gs : List Shape} (hgs : Resolves fs gs) :
      ∃ t', resolveBlocks.run.run t = (.ok (), t') ∧ t'.Depicts gs := by
    obtain ⟨hspread, hresolved⟩ := hgs.spread_regular htame
    exact resolveBlocks_complete (by rwa [hspread]) hresolved
  refine ⟨fs, hfs, ?_, ?_⟩
  · rw [matched_iff htame.1]
    constructor
    · rintro ⟨t', hrun⟩
      obtain ⟨gs, -, rfl, hresolved⟩ := resolveBlocks_sound hfs htame hrun
      exact ⟨gs, resolves_spreadRow hresolved htame⟩
    · rintro ⟨gs, hgs⟩
      obtain ⟨t', hrun, -⟩ := hcomplete hgs
      exact ⟨t', hrun⟩
  · intro t' hrun
    obtain ⟨gs, hgs, hspread, hresolved⟩ := resolveBlocks_sound hfs htame hrun
    refine ⟨gs, hgs, fun hs => ⟨fun hhs => ?_, ?_⟩, hresolved.forall_deep,
      resolveBlocks_resolved hgs hresolved⟩
    · obtain ⟨t'', hrun', hdepicts⟩ := hcomplete hhs
      rw [hrun] at hrun'
      obtain rfl := (Prod.mk.inj hrun').2
      exact hdepicts.unique hgs
    · rintro rfl
      subst hspread
      exact resolves_spreadRow hresolved htame

/-- A block in a block, with groups after all four commands; and a command whose partner stands in
another chain. -/
theorem resolveBlocks_eq_matching_nested :
    let nested := r"\begin{a}{l}\begin{b*}[1]\end{b*}[2]\end{a}{y}"
    let crossed := r"\begin{a}{\end{a}}"
    (∃ t fs t' gs, parse nested = .ok t ∧ t.Depicts fs ∧ Matched fs ∧
      resolveBlocks.run.run t = (.ok (), t') ∧ t'.Depicts gs ∧ Resolves fs gs ∧
      resolveBlocks.run.run t' = (.ok (), t')) ∧
    ∃ t fs, parse crossed = .ok t ∧ t.Depicts fs ∧ ¬Matched fs := by
  intro nested crossed
  have hok : ((parse nested).toOption.map fun t => (resolveBlocks.run.run t).1.isOk) = some true := by
    decide +kernel
  have hfault : ((parse crossed).toOption.map fun t => (resolveBlocks.run.run t).1.isOk) =
      some false := by
    decide +kernel
  constructor
  · obtain ⟨t, hparse, hrun⟩ := Option.map_eq_some_iff.mp hok
    obtain ⟨fs, hfs, hiff, hall⟩ := resolveBlocks_eq_matching (eq_ok_of_toOption hparse)
    rcases h : resolveBlocks.run.run t with ⟨e | ⟨⟩, t'⟩
    · rw [h] at hrun
      cases hrun
    · obtain ⟨gs, hgs, hresolves, -, hagain⟩ := hall t' h
      exact ⟨t, fs, t', gs, eq_ok_of_toOption hparse, hfs, hiff.mp ⟨t', h⟩, h, hgs,
        (hresolves gs).mpr rfl, hagain⟩
  · obtain ⟨t, hparse, hrun⟩ := Option.map_eq_some_iff.mp hfault
    obtain ⟨fs, hfs, hiff, -⟩ := resolveBlocks_eq_matching (eq_ok_of_toOption hparse)
    refine ⟨t, fs, eq_ok_of_toOption hparse, hfs, fun hmatched => ?_⟩
    obtain ⟨t', h⟩ := hiff.mpr hmatched
    rw [h] at hrun
    cases hrun

end Tree

end Formulary
