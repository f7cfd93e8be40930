import Formulary.Proofs.Reading

/-!
# Spreading blocks out

A block is written between two commands. `Shape.spreadRow` puts these commands in the place of every
block of a chain, with the body between them; the groups right after a block are parameters of the
closing command, as a reader would take them. So the spread chain is the one that reading the text
of a formula gives before its blocks are resolved.

* `charsOf_spreadRow`: spreading does not change the text.
* `spreadRow_splice`: putting a block in the place of two delimiting commands is undone by
  spreading, provided that the chain is one a reader gives (`Shape.TameChain`).
-/

namespace Formulary

namespace Shape

variable {f : Shape} {fs gs rest parameters : List Shape} {name : String}

/-- Whether an element is a block. -/
def isBlock : Shape → Bool
  | .block .. => true
  | _ => false

/-- The elements of a chain; the empty element that stands alone is none. -/
def contents : List Shape → List Shape
  | [.empty] => []
  | fs => fs

/-- A command that delimits a block. -/
def delimiter (side : Delimiting) (name : String) (parameters : List Shape) : Shape :=
  .command side.command (.group .braces [.literal name] :: parameters)

mutual

/-- Puts an element, spread out, in front of elements that are. -/
def spreadOnto : Shape → List Shape → List Shape
  | .literal text, rest => .literal text :: rest
  | .empty, rest => .empty :: rest
  | .group fence inner, rest => .group fence (spreadRow inner) :: rest
  | .script marker operand, rest =>
    -- A block is no operand; it would be left alone.
    match operand.spreadOnto [] with
    | [f] => .script marker f :: rest
    | _ => .script marker operand :: rest
  | .command name parameters, rest => .command name (spreadRow parameters) :: rest
  | .block name parameters body, rest =>
    delimiter .opens name (spreadRow parameters) ::
      (contents (spreadRow body) ++
        delimiter .closes name (rest.takeWhile isGroup) :: rest.dropWhile isGroup)

/-- Spreads all blocks of a chain out. -/
def spreadRow : List Shape → List Shape
  | [] => []
  | f :: fs => f.spreadOnto (spreadRow fs)

end

@[simp] theorem spreadRow_nil : spreadRow [] = [] := by rw [spreadRow]

@[simp] theorem spreadRow_cons (f : Shape) (fs : List Shape) :
    spreadRow (f :: fs) = f.spreadOnto (spreadRow fs) := by rw [spreadRow]

/-! ## Text -/

theorem charsOf_contents (fs : List Shape) : charsOf (contents fs) = charsOf fs := by
  unfold contents
  split
  · simp [chars]
  · rfl

theorem chars_delimiter (side : Delimiting) (name : String) (parameters : List Shape) :
    (delimiter side name parameters).chars = delimiterChars side name ++ charsOf parameters := by
  simp [delimiter, chars, delimiterChars]

mutual

/-- An element has the same text when it is spread. -/
theorem charsOf_spreadOnto : ∀ (f : Shape) (rest : List Shape),
    charsOf (f.spreadOnto rest) = f.chars ++ charsOf rest
  | .literal _, _ | .empty, _ => by rw [spreadOnto, charsOf_cons]
  | .group _ fs, _ | .command _ fs, _ => by
    rw [spreadOnto, charsOf_cons, chars, chars, charsOf_spreadRow fs]
  | .script marker operand, rest => by
    have ih := charsOf_spreadOnto operand []
    rw [spreadOnto]
    split
    · rename_i f hf
      rw [hf] at ih
      simp only [charsOf_cons, charsOf_nil, List.append_nil] at ih
      rw [charsOf_cons, chars, chars, ih]
    · rw [charsOf_cons]
  | .block name parameters body, rest => by
    have hrest : charsOf (rest.takeWhile isGroup) ++ charsOf (rest.dropWhile isGroup) =
        charsOf rest := by
      rw [← charsOf_append, List.takeWhile_append_dropWhile]
    rw [spreadOnto, charsOf_cons, charsOf_append, charsOf_cons, chars_delimiter, chars_delimiter,
      charsOf_contents, charsOf_spreadRow parameters, charsOf_spreadRow body, chars, ← hrest]
    simp only [List.append_assoc]

/-- Spreading does not change the text. -/
theorem charsOf_spreadRow : ∀ fs : List Shape, charsOf (spreadRow fs) = charsOf fs
  | [] => by simp
  | f :: fs => by
    rw [spreadRow_cons, charsOf_spreadOnto f, charsOf_spreadRow fs, charsOf_cons]

end

/-! ## Elements that are no blocks -/

/-- An element that is no block, with all blocks inside spread out. -/
def spread (f : Shape) : Shape :=
  match f.spreadOnto [] with
  | [g] => g
  | _ => f

/-- An element that is no block stays one element. -/
theorem spreadOnto_eq (h : f.isBlock = false) (rest : List Shape) :
    f.spreadOnto rest = f.spread :: rest := by
  cases f with
  | block => cases h
  | script marker operand =>
    simp only [spread, spreadOnto]
    split <;> rfl
  | literal | empty | group | command => simp [spread, spreadOnto]

theorem spread_group (fence : Fence) (inner : List Shape) :
    (group fence inner).spread = .group fence (spreadRow inner) := by
  simp [spread, spreadOnto]

theorem spread_command (name : String) (parameters : List Shape) :
    (command name parameters).spread = .command name (spreadRow parameters) := by
  simp [spread, spreadOnto]

theorem spread_script (marker : Marker) {operand : Shape} (h : operand.isBlock = false) :
    (script marker operand).spread = .script marker operand.spread := by
  rw [spread, spreadOnto, spreadOnto_eq h]

theorem isGroup_spread (f : Shape) : f.spread.isGroup = f.isGroup := by
  cases f with
  | block name parameters body =>
    unfold spread
    split
    · rename_i g hg
      rw [spreadOnto] at hg
      have hlen := congrArg List.length hg
      simp at hlen
    · rfl
  | script marker operand =>
    simp only [spread, spreadOnto]
    split
    · rename_i h
      split at h
      · obtain rfl := (List.cons.inj h).1
        rfl
      · obtain rfl := (List.cons.inj h).1
        rfl
    · rfl
  | literal | empty | group | command => simp [spread, spreadOnto, isGroup]

theorem isBlock_of_isGroup (h : f.isGroup = true) : f.isBlock = false := by
  cases f <;> simp_all [isGroup, isBlock]

theorem isGroup_head_spreadOnto (f : Shape) (rest : List Shape) :
    ∃ g gs, f.spreadOnto rest = g :: gs ∧ g.isGroup = f.isGroup := by
  by_cases h : f.isBlock = true
  · cases f with
    | block name parameters body =>
      exact ⟨delimiter .opens name (spreadRow parameters), _, by rw [spreadOnto], rfl⟩
    | _ => cases h
  · exact ⟨_, _, spreadOnto_eq (by simpa using h) rest, isGroup_spread f⟩

/-- A chain starts with a group just if it does once it is spread. -/
theorem forall_head_spreadRow :
    (∀ g ∈ (spreadRow fs).head?, g.isGroup = false) ↔ ∀ f ∈ fs.head?, f.isGroup = false := by
  cases fs with
  | nil => simp
  | cons f fs =>
    obtain ⟨g, gs, heq, hg⟩ := isGroup_head_spreadOnto f (spreadRow fs)
    simp [heq, hg]

theorem eq_nil_of_spreadRow (h : spreadRow fs = []) : fs = [] := by
  cases fs with
  | nil => rfl
  | cons f fs =>
    obtain ⟨g, gs, heq, -⟩ := isGroup_head_spreadOnto f (spreadRow fs)
    rw [spreadRow_cons, heq] at h
    cases h

theorem eq_empty_of_spreadRow (h : spreadRow fs = [.empty]) : fs = [.empty] := by
  cases fs with
  | nil => simp at h
  | cons f fs =>
    rw [spreadRow_cons] at h
    cases f with
    | empty =>
      rw [spreadOnto, List.cons.injEq] at h
      rw [eq_nil_of_spreadRow h.2]
    | script marker operand =>
      rw [spreadOnto] at h
      split at h <;> simp at h
    | literal | group | command | block => simp [spreadOnto, delimiter] at h

theorem exists_of_spreadRow {text : String} (h : spreadRow fs = .literal text :: gs) :
    ∃ fs', fs = .literal text :: fs' := by
  cases fs with
  | nil =>
    rw [spreadRow_nil] at h
    cases h
  | cons f fs =>
    rw [spreadRow_cons] at h
    cases f with
    | script marker operand =>
      rw [spreadOnto] at h
      split at h <;> cases h
    | literal text' =>
      rw [spreadOnto] at h
      cases h
      exact ⟨fs, rfl⟩
    | empty | group | command | block =>
      rw [spreadOnto] at h
      cases h

/-! ## Stretches of a chain -/

theorem spreadOnto_append (f : Shape) {hs : List Shape} (h : ∀ g ∈ hs.head?, g.isGroup = false) :
    f.spreadOnto (gs ++ hs) = f.spreadOnto gs ++ hs := by
  by_cases hf : f.isBlock = true
  · cases f with
    | block name parameters body =>
      obtain ⟨htake, hdrop⟩ := span_append h gs
      simp [spreadOnto, htake, hdrop]
    | _ => cases hf
  · have hf : f.isBlock = false := by simpa using hf
    rw [spreadOnto_eq hf, spreadOnto_eq hf, List.cons_append]

/-- A chain may be spread piece by piece, unless groups would go to a block before them. -/
theorem spreadRow_append (h : ∀ g ∈ gs.head?, g.isGroup = false) :
    spreadRow (fs ++ gs) = spreadRow fs ++ spreadRow gs := by
  have hhead := forall_head_spreadRow.mpr h
  induction fs with
  | nil => rfl
  | cons f fs ih => rw [List.cons_append, spreadRow_cons, ih, spreadOnto_append f hhead, spreadRow_cons]

/-- Groups at the start of a chain are spread one by one. -/
theorem spreadRow_groups (h : ∀ f ∈ fs, f.isGroup = true) (gs : List Shape) :
    spreadRow (fs ++ gs) = fs.map spread ++ spreadRow gs := by
  induction fs with
  | nil => rfl
  | cons f fs ih =>
    have hf := isBlock_of_isGroup (h f List.mem_cons_self)
    rw [List.cons_append, spreadRow_cons, ih fun g hg => h g (List.mem_cons_of_mem _ hg),
      spreadOnto_eq hf, List.map_cons, List.cons_append]

/-- If all of a spread chain are groups, then so are the elements that were spread. -/
theorem isGroup_of_spreadRow (h : ∀ g ∈ spreadRow fs, g.isGroup = true) :
    ∀ f ∈ fs, f.isGroup = true := by
  induction fs with
  | nil => simp
  | cons f fs ih =>
    obtain ⟨g, gs, heq, hg⟩ := isGroup_head_spreadOnto f (spreadRow fs)
    rw [spreadRow_cons] at h
    have hf : f.isGroup = true := by
      rw [← hg]
      exact h g (heq ▸ List.mem_cons_self)
    rw [spreadOnto_eq (isBlock_of_isGroup hf)] at h
    intro k hk
    rcases List.mem_cons.mp hk with rfl | hk
    · exact hf
    · exact ih (fun g hg => h g (List.mem_cons_of_mem _ hg)) k hk

/-! ## Tame chains -/

/-- What a reader gives side by side: nothing empty beside other elements, and no group after a
closing command, which would have taken it as a parameter. -/
def Calm (f g : Shape) : Prop :=
  g ≠ .empty ∧ ∀ parameters, f = .command Delimiting.closes.command parameters → g.isGroup = false

mutual

/-- An element without blocks in which all chains are calm, all operands are atomic and all parameters
are groups. -/
def Tame : Shape → Prop
  | .literal _ | .empty => True
  | .group _ inner => TameRow inner ∧ inner.IsChain Calm
  | .script _ operand => operand.isAtomic = true ∧ operand.Tame
  | .command _ parameters => TameRow parameters ∧ ∀ p ∈ parameters, p.isGroup = true
  | .block .. => False

/-- Elements that are all tame. -/
def TameRow : List Shape → Prop
  | [] => True
  | f :: fs => f.Tame ∧ TameRow fs

end

/-- A calm chain of tame elements. -/
def TameChain (fs : List Shape) : Prop := TameRow fs ∧ fs.IsChain Calm

@[simp] theorem tameRow_nil : TameRow [] := by
  rw [TameRow]
  trivial

@[simp] theorem tameRow_cons : TameRow (f :: fs) ↔ f.Tame ∧ TameRow fs := by
  rw [TameRow]

@[simp] theorem tameRow_append : TameRow (fs ++ gs) ↔ TameRow fs ∧ TameRow gs := by
  induction fs with
  | nil => simp
  | cons f fs ih => simp [ih, and_assoc]

theorem isWord_command (side : Delimiting) : isWord side.command = true := by
  cases side <;> decide

theorem calm_of_canonical {closer : Option Symbol} (hall : AllCanonical (.chain closer) fs)
    (hchain : fs.IsChain MayFollow) : fs.IsChain Calm := by
  induction fs with
  | nil => exact List.isChain_nil
  | cons f fs ih =>
    cases fs with
    | nil => exact List.isChain_singleton f
    | cons g gs =>
      rw [allCanonical_cons] at hall
      obtain ⟨hfg, hchain⟩ := List.isChain_cons_cons.mp hchain
      refine List.isChain_cons_cons.mpr ⟨⟨?_, ?_⟩, ih hall.2 hchain⟩
      · rintro rfl
        simp [Canonical] at hall
      · rintro parameters rfl
        exact (hfg.2 parameters (by rw [trailing, if_pos (isWord_command _)])).1

theorem Canonical.isAtomic (h : Canonical .operand f) : f.isAtomic = true := by
  cases f with
  | literal text =>
    rw [Canonical] at h
    rcases h with ⟨c, -, htext⟩ | ⟨s, htext⟩
    · simp [Shape.isAtomic, htext]
    · simp [Shape.isAtomic, htext, Symbol.char]
  | group | command => rfl
  | empty | script | block => simp [Canonical] at h

mutual

/-- What a reader gives is tame. -/
theorem Canonical.tame : ∀ {f : Shape} {place : Place}, Canonical place f → f.Tame
  | .literal _, _, _ | .empty, _, _ => by simp [Tame]
  | .group fence inner, place, h => by
    obtain ⟨-, hinner⟩ := canonical_group.mp h
    rw [Tame]
    rcases hinner with rfl | ⟨-, hall, hchain⟩
    · simp [Tame]
    · exact ⟨AllCanonical.tame hall, calm_of_canonical hall hchain⟩
  | .script marker operand, place, h => by
    rw [Tame]
    cases place with
    | chain closer =>
      have hoperand := canonical_script.mp h
      exact ⟨hoperand.isAtomic, Canonical.tame hoperand⟩
    | operand | parameter => simp [Canonical] at h
  | .command name parameters, place, h => by
    rw [Tame]
    obtain ⟨-, ⟨-, rfl⟩ | ⟨-, hall⟩⟩ := canonical_command.mp h
    · simp
    · exact ⟨AllCanonical.tame hall, fun p hp => (allCanonical_iff.mp hall p hp).isGroup⟩
  | .block _ _ _, place, h => by simp [Canonical] at h

theorem AllCanonical.tame : ∀ {fs : List Shape} {place : Place}, AllCanonical place fs → TameRow fs
  | [], _, _ => tameRow_nil
  | f :: fs, place, h => by
    rw [allCanonical_cons] at h
    exact tameRow_cons.mpr ⟨Canonical.tame h.1, AllCanonical.tame h.2⟩

end

theorem CanonicalChain.tameChain {closer : Option Symbol} (h : CanonicalChain closer fs) :
    TameChain fs := by
  rcases h with rfl | ⟨-, hall, hchain⟩
  · simp [TameChain, Tame]
  · exact ⟨AllCanonical.tame hall, calm_of_canonical hall hchain⟩

theorem calm_groups (hgs : ∀ g ∈ gs, g.isGroup = true) (hrest : rest.IsChain Calm)
    (hhead : ∀ r ∈ rest.head?, r ≠ .empty) :
    (gs ++ rest).IsChain Calm := by
  induction gs with
  | nil => exact hrest
  | cons g gs ih =>
    rw [List.cons_append, List.isChain_cons]
    refine ⟨fun k hk => ⟨?_, ?_⟩, ih fun k hk => hgs k (List.mem_cons_of_mem _ hk)⟩
    · cases gs with
      | nil => exact hhead k hk
      | cons g' gs =>
        obtain rfl := Option.some.inj hk
        rintro rfl
        exact absurd (hgs .empty (by simp)) (by simp [isGroup])
    · rintro parameters rfl
      exact absurd (hgs _ List.mem_cons_self) (by simp [isGroup])

/-- What comes after the first element of a tame chain is tame also before it is spread. -/
theorem TameChain.of_spreadOnto (h : TameChain (f.spreadOnto rest)) : TameChain rest := by
  obtain ⟨hrow, hchain⟩ := h
  by_cases hf : f.isBlock = true
  · cases f with
    | block name parameters body =>
      rw [spreadOnto] at hrow hchain
      simp only [tameRow_cons, tameRow_append, delimiter, Tame] at hrow
      obtain ⟨-, -, ⟨⟨-, hgroups⟩, -⟩, hrest⟩ := hrow
      rw [List.isChain_cons] at hchain
      have hclose := (List.isChain_append.mp hchain.2).2.1
      rw [List.isChain_cons] at hclose
      rw [← List.takeWhile_append_dropWhile (p := isGroup) (l := rest)]
      refine ⟨tameRow_append.mpr ⟨hgroups, hrest⟩, calm_groups ?_ hclose.2 ?_⟩
      · exact fun g hg => List.mem_takeWhile_imp hg
      · exact fun r hr => (hclose.1 r hr).1
    | _ => cases hf
  · rw [spreadOnto_eq (by simpa using hf)] at hrow hchain
    exact ⟨(tameRow_cons.mp hrow).2, (List.isChain_cons.mp hchain).2⟩

theorem contents_of_ne (h : fs ≠ [.empty]) : contents fs = fs := by
  unfold contents
  split
  · exact absurd rfl h
  · rfl

mutual

/-- Without blocks there is nothing to spread. -/
theorem Tame.spreadOnto : ∀ {f : Shape}, f.Tame → ∀ rest, f.spreadOnto rest = f :: rest
  | .literal _, _, rest | .empty, _, rest => by rw [Shape.spreadOnto]
  | .group _ inner, h, rest | .command _ inner, h, rest => by
    rw [Tame] at h
    rw [Shape.spreadOnto, TameRow.spreadRow h.1]
  | .script _ operand, h, rest => by
    rw [Tame] at h
    rw [Shape.spreadOnto, Tame.spreadOnto h.2 []]
  | .block .., h, _ => by simp [Tame] at h

/-- A chain of tame elements has no blocks to spread. -/
theorem TameRow.spreadRow : ∀ {fs : List Shape}, TameRow fs → Shape.spreadRow fs = fs
  | [], _ => spreadRow_nil
  | f :: fs, h => by
    rw [tameRow_cons] at h
    rw [spreadRow_cons, TameRow.spreadRow h.2, Tame.spreadOnto h.1]

end

/-! ## Parts of tame chains

What is spread inside a tame chain is tame. -/

theorem TameChain.of_script {marker : Marker} {operand : Shape}
    (h : TameChain ((script marker operand).spreadOnto rest)) :
    operand.isBlock = false ∧ TameChain (operand.spreadOnto []) := by
  have hblock : operand.isBlock = false := by
    by_contra hblock
    cases operand with
    | block name parameters body =>
      simp [TameChain, spreadOnto, Tame] at h
    | _ => exact hblock rfl
  refine ⟨hblock, ?_⟩
  rw [spreadOnto, spreadOnto_eq hblock] at h
  rw [spreadOnto_eq hblock]
  have hrow := (tameRow_cons.mp h.1).1
  rw [Tame] at hrow
  exact ⟨tameRow_cons.mpr ⟨hrow.2, tameRow_nil⟩, List.isChain_singleton _⟩

theorem tameChain_of_parameter (hrow : TameRow (spreadRow fs))
    (hgroups : ∀ g ∈ spreadRow fs, g.isGroup = true) (hf : f ∈ fs) :
    TameChain (f.spreadOnto []) := by
  have hall := isGroup_of_spreadRow hgroups
  have hspread : spreadRow fs = fs.map spread := by simpa using spreadRow_groups hall []
  rw [spreadOnto_eq (isBlock_of_isGroup (hall f hf))]
  refine ⟨tameRow_cons.mpr ⟨?_, tameRow_nil⟩, List.isChain_singleton _⟩
  rw [hspread] at hrow
  obtain ⟨pre, post, rfl⟩ := List.append_of_mem hf
  rw [List.map_append, List.map_cons, tameRow_append, tameRow_cons] at hrow
  exact hrow.2.1

/-- The body of a block is tame where the block is spread in a tame chain. -/
theorem TameChain.of_body {body : List Shape}
    (h : TameChain ((block name parameters body).spreadOnto rest)) :
    TameChain (spreadRow body) := by
  by_cases hempty : spreadRow body = [.empty]
  · simp [hempty, TameChain, Tame]
  · rw [spreadOnto, contents_of_ne hempty] at h
    obtain ⟨hrow, hchain⟩ := h
    exact ⟨(tameRow_append.mp (tameRow_cons.mp hrow).2).1,
      (List.isChain_append.mp (List.isChain_cons.mp hchain).2).1⟩

/-- An element may be exchanged for one that spreads alike. -/
theorem spreadRow_exchange {g g' : Shape} (h : ∀ rest, g'.spreadOnto rest = g.spreadOnto rest)
    (fs gs : List Shape) : spreadRow (fs ++ g' :: gs) = spreadRow (fs ++ g :: gs) := by
  induction fs with
  | nil => rw [List.nil_append, List.nil_append, spreadRow_cons, spreadRow_cons, h]
  | cons f fs ih => rw [List.cons_append, List.cons_append, spreadRow_cons, spreadRow_cons, ih]

/-! ## Putting a block in place -/

theorem spreadOnto_delimiter (side : Delimiting) (name : String) (parameters rest : List Shape) :
    (delimiter side name parameters).spreadOnto rest =
      delimiter side name (spreadRow parameters) :: rest := by
  simp [delimiter, spreadOnto]

theorem spreadRow_delimiters (name : String) (parameters mid extras post : List Shape) :
    spreadRow (delimiter .opens name parameters :: (mid ++ delimiter .closes name extras :: post)) =
      delimiter .opens name (spreadRow parameters) ::
        (spreadRow mid ++ delimiter .closes name (spreadRow extras) :: spreadRow post) := by
  rw [spreadRow_cons, spreadOnto_delimiter, spreadRow_append (by simp [delimiter, isGroup]),
    spreadRow_cons, spreadOnto_delimiter]

/-- A closing command has groups for parameters, and has all groups that stand after its name. -/
theorem TameChain.groups_closing {mid extras post : List Shape}
    (h : TameChain (spreadRow (delimiter .opens name parameters ::
      (mid ++ delimiter .closes name extras :: post)))) :
    (∀ f ∈ extras, f.isGroup = true) ∧ ∀ g ∈ (spreadRow post).head?, g.isGroup = false := by
  rw [spreadRow_delimiters] at h
  obtain ⟨hrow, hchain⟩ := h
  simp only [tameRow_cons, tameRow_append, delimiter, Tame] at hrow
  obtain ⟨-, -, ⟨-, hgroups⟩, -⟩ := hrow
  rw [List.isChain_cons] at hchain
  have hclose := List.isChain_cons.mp (List.isChain_append.mp hchain.2).2.1
  exact ⟨isGroup_of_spreadRow fun g hg => hgroups g (List.mem_cons_of_mem _ hg),
    fun g hg => (hclose.1 g hg).2 _ rfl⟩

/-- Spreading a block gives back the commands in whose place it was put. -/
theorem spreadRow_splice {mid extras post : List Shape}
    (h : TameChain (spreadRow (delimiter .opens name parameters ::
      (mid ++ delimiter .closes name extras :: post)))) :
    spreadRow (.block name parameters (chain mid) :: (extras ++ post)) =
      spreadRow (delimiter .opens name parameters ::
        (mid ++ delimiter .closes name extras :: post)) := by
  obtain ⟨hextras, hpost⟩ := h.groups_closing
  rw [spreadRow_delimiters] at h ⊢
  have hchain := List.isChain_cons.mp h.2
  have hmid : contents (spreadRow (chain mid)) = spreadRow mid := by
    cases mid with
    | nil => simp [spreadOnto, contents]
    | cons f fs =>
      refine contents_of_ne fun heq => ?_
      rw [chain_cons] at heq
      exact (hchain.1 .empty (by simp [heq])).1 rfl
  have hspread : spreadRow extras = extras.map spread := by
    simpa using spreadRow_groups hextras []
  obtain ⟨htake, hdrop⟩ := span_append hpost (extras.map spread)
  have hall : ∀ g ∈ extras.map spread, g.isGroup = true := by
    simpa [isGroup_spread] using hextras
  rw [List.takeWhile_eq_self_iff.mpr hall] at htake
  rw [List.dropWhile_eq_nil_iff.mpr hall, List.nil_append] at hdrop
  rw [spreadRow_cons, spreadOnto, spreadRow_groups hextras, hmid, htake, hdrop, hspread]

end Shape

end Formulary
