import Formulary.Proofs.Acceptance

/-!
# Substitution at once

A use of a macro stands for the body with all placeholders substituted at the same time: what an
argument brings is not looked at again, and no placeholder gets in the way of another.

* `Shape.placeholders`: the numbers of the arguments that a chain asks for.
* `Shape.substitute`: a chain with elements in the place of its placeholders.
* `Shape.fillRow_eq`: the chain is filled in by this substitution, if all arguments are there.

Text is gone through from left to right. A hash sign with a digit from 1 to 9 is a placeholder, and
the text before it and after it stays. A placeholder after a marker is the hash sign as an operand and
the digit at the start of the next element.
-/

namespace Formulary

namespace Shape

/-! ## Text -/

/-- The numbers of the placeholders of a text. -/
def numbers : List Char → List Nat
  | [] => []
  | [_] => []
  | c :: d :: rest =>
    if c = '#' ∧ '1' ≤ d ∧ d ≤ '9' then (d.toNat - '0'.toNat) :: numbers rest
    else numbers (d :: rest)

/-- Some text as elements. -/
def plain (run : List Char) : List Shape :=
  if run = [] then [] else [.literal (String.ofList run)]

/-- The elements that a text becomes, after the text `run` in front of it in which there is no
placeholder. -/
def substituteText (A : Nat → List Shape) : List Char → List Char → List Shape
  | run, [] => plain run
  | run, [c] => plain (run ++ [c])
  | run, c :: d :: rest =>
    if c = '#' ∧ '1' ≤ d ∧ d ≤ '9' then
      plain run ++ (A (d.toNat - '0'.toNat) ++ substituteText A [] rest)
    else substituteText A (run ++ [c]) (d :: rest)

/-! ## Chains -/

/-- The numbers of the placeholders in the text of an element. -/
def ownNumbers : Shape → List Nat
  | .literal text => numbers text.toList
  | _ => []

/-- The number of the placeholder that an element stands for together with the next one. -/
def scriptNumbers (f : Shape) : List Shape → List Nat
  | [] => []
  | g :: _ => ((scriptPlaceholder? f g).map fun x => x.2.1).toList

mutual

/-- The numbers of the placeholders inside of an element. -/
def placeholdersInside : Shape → List Nat
  | .literal _ | .empty => []
  | .group _ inner => placeholders inner
  | .script _ operand => placeholdersInside operand
  | .command _ parameters => placeholders parameters
  | .block _ parameters body => placeholders parameters ++ placeholders body

/-- The numbers of the placeholders of a chain. -/
def placeholders : List Shape → List Nat
  | [] => []
  | f :: fs => scriptNumbers f fs ++ (ownNumbers f ++ (placeholdersInside f ++ placeholders fs))

end

/-- The elements that an element becomes whose inside is done. -/
def substituteOwn (A : Nat → List Shape) : Shape → List Shape
  | .literal text => chain (substituteText A [] text.toList)
  | f => [f]

/-- The elements that the text after the digit of a placeholder becomes. -/
def substituteRest (A : Nat → List Shape) (rest : List Char) : List Shape :=
  if rest = [] then [] else chain (substituteText A [] rest)

mutual

/-- An element with the placeholders inside of it substituted. Text is left to the chain in which it
stands; an operand that is text stays. -/
def substituteInside (A : Nat → List Shape) : Shape → Shape
  | .literal text => .literal text
  | .empty => .empty
  | .group fence inner => .group fence (substitute A inner)
  | .script marker operand => .script marker (substituteInside A operand)
  | .command name parameters => .command name (substitute A parameters)
  | .block name parameters body => .block name (substitute A parameters) (substitute A body)

/-- A chain with its placeholders substituted. The digit of a placeholder after a marker goes, and its
element too if nothing else is in it. -/
def substitute (A : Nat → List Shape) : List Shape → List Shape
  | [] => []
  | [f] => substituteOwn A (substituteInside A f)
  | f :: g :: fs =>
    match scriptPlaceholder? f g with
    | some (marker, index, rest) =>
      .script marker (asOperand (A index)) :: chain (substituteRest A rest ++ substitute A fs)
    | none => substituteOwn A (substituteInside A f) ++ substitute A (g :: fs)

end

/-! ## Arguments that are there -/

section

variable {text : List Char} {f : Shape} {index k : Nat} {fs : List Shape}
variable (arguments : List Shape)

/-- What the argument with a number brings. -/
def brought (index : Nat) : List Shape := (argument? arguments index).getD []

variable {α β γ : Type}

/-- Something that is there if all the arguments asked for are. -/
def given (ks : List Nat) (a : α) : Option α :=
  if ks.all fun k => (argument? arguments k).isSome then some a else none

variable {arguments}

theorem given_nil (a : α) : given arguments [] a = some a := rfl

theorem given_append (arguments : List Shape) (ks ls : List Nat) (a : α) (b : β) (f : α → β → γ) :
    (do return f (← given arguments ks a) (← given arguments ls b)) =
      given arguments (ks ++ ls) (f a b) := by
  simp only [given, List.all_append]
  cases ks.all fun k => (argument? arguments k).isSome <;>
    cases ls.all fun k => (argument? arguments k).isSome <;> rfl

theorem argument?_eq_given (k : Nat) :
    argument? arguments k = given arguments [k] (brought arguments k) := by
  rw [given, brought, List.all_cons, List.all_nil, Bool.and_true]
  rcases hk : argument? arguments k with _ | fs
  · rfl
  · rfl

theorem given_cons (arguments : List Shape) (k : Nat) (ls : List Nat) (b : β) (f : List Shape → β → γ) :
    (do return f (← argument? arguments k) (← given arguments ls b)) =
      given arguments (k :: ls) (f (brought arguments k) b) := by
  rw [argument?_eq_given, given_append, List.singleton_append]

theorem given_map (ks : List Nat) (a : α) (f : α → β) :
    (given arguments ks a).map f = given arguments ks (f a) := by
  rw [given, given]
  cases ks.all fun k => (argument? arguments k).isSome <;> rfl

/-! ## Filling in text -/

theorem argumentDigit?_eq (d : Char) : argumentDigit? d =
    if '1' ≤ d ∧ d ≤ '9' then some (d.toNat - '0'.toNat) else none := by
  simp only [argumentDigit?, Bool.and_eq_true, decide_eq_true_eq]

theorem foldr_consChar_nil (run : List Char) :
    run.foldr Piece.consChar [] = if run = [] then [] else [.text run] := by
  induction run with
  | nil => rfl
  | cons c run ih =>
    rw [List.foldr_cons, ih]
    cases run <;> rfl

theorem foldr_consChar_argument (run : List Char) (index : Nat) (pieces : List Piece) :
    run.foldr Piece.consChar (.argument index :: pieces) =
      (if run = [] then [] else [.text run]) ++ .argument index :: pieces := by
  induction run with
  | nil => rfl
  | cons c run ih =>
    rw [List.foldr_cons, ih]
    cases run <;> rfl

theorem fillPieces_plain (arguments : List Shape) (run : List Char) (pieces : List Piece) :
    fillPieces arguments ((if run = [] then [] else [.text run]) ++ pieces) = do
      return plain run ++ (← fillPieces arguments pieces) := by
  by_cases hrun : run = []
  · rw [if_pos hrun, plain, if_pos hrun]
    simp
  · rw [if_neg hrun, plain, if_neg hrun, List.singleton_append, fillPieces]
    cases fillPieces arguments pieces <;> rfl

/-- The pieces of a text are filled in from left to right. -/
theorem fillPieces_split (arguments : List Shape) (text run : List Char) :
    fillPieces arguments (run.foldr Piece.consChar (Piece.split text)) =
      given arguments (numbers text) (substituteText (brought arguments) run text) := by
  fun_induction numbers text generalizing run with
  | case1 =>
    have hpieces := fillPieces_plain arguments run []
    rw [List.append_nil] at hpieces
    rw [Piece.split, foldr_consChar_nil, hpieces, substituteText, given_nil]
    simp [fillPieces]
  | case2 c =>
    have hpieces := fillPieces_plain arguments (run ++ [c]) []
    rw [List.append_nil] at hpieces
    have hsplit : run.foldr Piece.consChar (Piece.split [c]) =
        (run ++ [c]).foldr Piece.consChar [] := by
      rw [List.foldr_append]
      rfl
    rw [hsplit, foldr_consChar_nil, hpieces, substituteText, given_nil]
    simp [fillPieces]
  | case3 c d rest h ih =>
    have hsplit : Piece.split (c :: d :: rest) =
        .argument (d.toNat - '0'.toNat) :: Piece.split rest := by
      rw [Piece.split, if_pos h.1, argumentDigit?_eq, if_pos h.2]
    have hrest := ih []
    rw [List.foldr_nil] at hrest
    rw [hsplit, foldr_consChar_argument, fillPieces_plain, fillPieces, hrest,
      given_cons, substituteText, if_pos h]
    exact given_append arguments [] _ (plain run) _ (· ++ ·)
  | case4 c d rest h ih =>
    have hsplit : run.foldr Piece.consChar (Piece.split (c :: d :: rest)) =
        (run ++ [c]).foldr Piece.consChar (Piece.split (d :: rest)) := by
      have hnone : (if c = '#' then argumentDigit? d else none) = none := by
        rw [argumentDigit?_eq]
        split
        · next hc => exact if_neg fun hd => h ⟨hc, hd⟩
        · rfl
      rw [List.foldr_append, Piece.split, hnone]
      rfl
    rw [hsplit, ih, substituteText, if_neg h]

/-- Text without placeholders stays. -/
theorem substituteText_of_hasPlaceholder {A : Nat → List Shape} (h : hasPlaceholder text = false)
    (run : List Char) :
    numbers text = [] ∧ substituteText A run text = plain (run ++ text) := by
  fun_induction substituteText A run text with
  | case1 run => exact ⟨rfl, by rw [List.append_nil]⟩
  | case2 run c => exact ⟨rfl, rfl⟩
  | case3 run c d rest hplaceholder ih =>
    rw [hasPlaceholder, argumentDigit?_eq, if_pos hplaceholder.2, hplaceholder.1] at h
    cases h
  | case4 run c d rest hplaceholder ih =>
    rw [hasPlaceholder, Bool.or_eq_false_iff] at h
    obtain ⟨hnumbers, htext⟩ := ih h.2
    rw [numbers, if_neg hplaceholder]
    exact ⟨hnumbers, by rw [htext, List.append_assoc]; rfl⟩

theorem fillText_eq (hne : text ≠ []) :
    fillText arguments text =
      given arguments (numbers text) (chain (substituteText (brought arguments) [] text)) := by
  rw [fillText]
  cases hplaceholder : hasPlaceholder text with
  | true =>
    have hsplit := fillPieces_split arguments text []
    rw [List.foldr_nil] at hsplit
    rw [if_pos rfl, hsplit, given, given]
    split <;> rfl
  | false =>
    obtain ⟨hnumbers, htext⟩ :=
      substituteText_of_hasPlaceholder (A := brought arguments) hplaceholder []
    rw [if_neg Bool.false_ne_true, hnumbers, htext, given_nil, List.nil_append, plain, if_neg hne]
    rfl

theorem fillRest_eq (rest : List Char) :
    fillRest arguments rest =
      given arguments (numbers rest) (substituteRest (brought arguments) rest) := by
  cases rest with
  | nil => rfl
  | cons c rest =>
    rw [fillRest, substituteRest, if_neg (List.cons_ne_nil c rest)]
    exact fillText_eq (List.cons_ne_nil c rest)

/-! ## Filling in chains -/

/-- In a chain the own text of an element is filled in as well. -/
theorem woven_eq (hf : f.Neat) (h : fillInside arguments f =
      given arguments (placeholdersInside f) (substituteInside (brought arguments) f)) :
    woven arguments f (fillInside arguments f) =
      given arguments (ownNumbers f ++ placeholdersInside f)
        (substituteOwn (brought arguments) (substituteInside (brought arguments) f)) := by
  cases f with
  | literal text =>
    rw [Neat] at hf
    have hne : text.toList ≠ [] := fun hnil => hf.1 (String.toList_eq_nil_iff.mp hnil)
    rw [woven, fillText_eq hne, ownNumbers, placeholdersInside, List.append_nil, substituteInside,
      substituteOwn]
  | empty | group | script | command | block =>
    simp only [woven, h, ownNumbers, List.nil_append, substituteInside]
    exact given_map _ _ _

/-- Groups are filled in alike as parameters and in a chain. -/
theorem fillAll_eq_fillRow : ∀ {fs : List Shape}, (∀ f ∈ fs, f.isGroup = true) →
    fillAll arguments fs = fillRow arguments fs
  | [], _ => by rw [fillAll, fillRow]
  | f :: fs, h => by
    rw [List.forall_mem_cons] at h
    have hnone : ∀ g ∈ fs.head?, scriptPlaceholder? f g = none := by
      cases f with
      | script => cases h.1
      | _ => exact fun _ _ => rfl
    have hasks := Plan.asks_of_isGroup h.1
    rw [fillAll, Plan.fillRow_cons_of_asks hasks hnone, alone, hasks, fillAll_eq_fillRow h.2]
    rfl

/-- A digit is no placeholder, so the text after it holds them all. -/
theorem numbers_digit {c : Char} (h : argumentDigit? c = some index) (rest : List Char) :
    numbers (c :: rest) = numbers rest := by
  have hc : c ≠ '#' := by
    rintro rfl
    cases h
  cases rest with
  | nil => rfl
  | cons d rest => rw [numbers, if_neg fun hplaceholder => hc hplaceholder.1]

/-- The numbers of a chain that starts with a placeholder after a marker. -/
theorem placeholders_script {g : Shape} {marker : Marker} {rest : List Char}
    (h : scriptPlaceholder? f g = some (marker, index, rest)) :
    placeholders (f :: g :: fs) = index :: (numbers rest ++ placeholders fs) := by
  obtain ⟨text, c, rfl, rfl, htext, hdigit⟩ := scriptPlaceholder?_eq_some h
  have hnext : scriptNumbers (.literal text) fs = [] := by
    cases fs <;> rfl
  rw [placeholders, scriptNumbers, h, placeholders, hnext]
  simp only [ownNumbers, placeholdersInside, htext, numbers_digit hdigit, List.nil_append]
  rfl

mutual

/-- What stands inside of an element is filled in at once. -/
theorem fillInside_eq (arguments : List Shape) : ∀ {f : Shape}, f.Neat →
    fillInside arguments f =
      given arguments (placeholdersInside f) (substituteInside (brought arguments) f)
  | .literal text, _ => by
    rw [fillInside, substituteInside]
    rfl
  | .empty, _ => by
    rw [fillInside, substituteInside]
    rfl
  | .group fence inner, h => by
    rw [Neat] at h
    rw [fillInside, fillRow_eq arguments h.2, substituteInside]
    exact given_map _ _ _
  | .script marker operand, h => by
    rw [Neat] at h
    rw [fillInside, alone, Plan.asks_of_isAtomic h.1, fillInside_eq arguments h.2, substituteInside]
    exact given_map _ _ _
  | .command name parameters, h => by
    rw [Neat] at h
    rw [fillInside, fillAll_eq_fillRow h.2.2.1, fillRow_eq arguments h.2.2.2, substituteInside]
    exact given_map _ _ _
  | .block name parameters body, h => by
    rw [Neat] at h
    rw [fillInside, fillAll_eq_fillRow h.2.1, fillRow_eq arguments h.2.2.1,
      fillRow_eq arguments h.2.2.2.2, given_append, substituteInside]
    rfl

/-- A chain is filled in by substitution at once, if all the arguments it asks for are there. -/
theorem fillRow_eq (arguments : List Shape) : ∀ {fs : List Shape}, NeatRow fs →
    fillRow arguments fs =
      given arguments (placeholders fs) (substitute (brought arguments) fs)
  | [], _ => by
    rw [fillRow, substitute]
    rfl
  | [f], h => by
    rw [fillRow, woven_eq (neatRow_cons.mp h).1 (fillInside_eq arguments (neatRow_cons.mp h).1),
      placeholders, scriptNumbers, placeholders,
      List.append_nil, substitute, List.nil_append]
  | f :: g :: fs, h => by
    obtain ⟨hf, hgs⟩ := neatRow_cons.mp h
    rcases hscript : scriptPlaceholder? f g with _ | ⟨marker, index, rest⟩
    · have hfirst : scriptNumbers f (g :: fs) = [] := by
        rw [scriptNumbers, hscript]
        rfl
      rw [fillRow, hscript, substitute, hscript, placeholders, hfirst]
      dsimp only
      rw [woven_eq hf (fillInside_eq arguments hf), fillRow_eq arguments hgs, given_append,
        List.nil_append, List.append_assoc]
    · -- The operand, the text after the digit and the rest of the chain, one after the other.
      rw [fillRow, hscript, substitute, hscript, placeholders_script hscript]
      dsimp only
      have hafter := given_append arguments (numbers rest) (placeholders fs)
        (substituteRest (brought arguments) rest) (substitute (brought arguments) fs)
        fun gs hs => chain (gs ++ hs)
      have hall := given_cons arguments index (numbers rest ++ placeholders fs)
        (chain (substituteRest (brought arguments) rest ++ substitute (brought arguments) fs))
        fun operand gs => script marker (asOperand operand) :: gs
      rw [fillRest_eq, fillRow_eq arguments (neatRow_cons.mp hgs).2, ← hall, ← hafter]
      simp only [bind_assoc, pure_bind]

end

/-! ## Numbers that are asked for -/

theorem one_le_of_argumentDigit? {c : Char} (h : argumentDigit? c = some index) : 1 ≤ index := by
  rw [argumentDigit?_eq] at h
  obtain ⟨⟨hle, -⟩, heq⟩ := Option.ite_none_right_eq_some.mp h
  rw [← Option.some.inj heq]
  exact Nat.le_sub_of_add_le (UInt32.le_iff_toNat_le.mp (Char.le_def.mp hle))

theorem one_le_of_mem_numbers (h : k ∈ numbers text) : 1 ≤ k := by
  fun_induction numbers text with
  | case1 | case2 => cases h
  | case3 c d rest hplaceholder ih =>
    rcases List.mem_cons.mp h with rfl | h
    · exact one_le_of_argumentDigit? (by rw [argumentDigit?_eq, if_pos hplaceholder.2])
    · exact ih h
  | case4 c d rest _ ih => exact ih h

theorem one_le_of_mem_scriptNumbers (h : k ∈ scriptNumbers f fs) : 1 ≤ k := by
  cases fs with
  | nil => cases h
  | cons g fs =>
    rw [scriptNumbers, Option.mem_toList, Option.map_eq_some_iff] at h
    obtain ⟨⟨marker, index, rest⟩, hscript, rfl⟩ := h
    obtain ⟨-, c, -, -, -, hdigit⟩ := scriptPlaceholder?_eq_some hscript
    exact one_le_of_argumentDigit? hdigit

mutual

theorem one_le_of_mem_placeholdersInside {k : Nat} : ∀ {f : Shape}, k ∈ placeholdersInside f → 1 ≤ k
  | .literal _, h | .empty, h => by
    rw [placeholdersInside] at h
    cases h
  | .group _ inner, h | .command _ inner, h => by
    rw [placeholdersInside] at h
    exact one_le_of_mem_placeholders h
  | .script _ operand, h => by
    rw [placeholdersInside] at h
    exact one_le_of_mem_placeholdersInside h
  | .block _ parameters body, h => by
    rw [placeholdersInside] at h
    rcases List.mem_append.mp h with h | h
    · exact one_le_of_mem_placeholders h
    · exact one_le_of_mem_placeholders h

theorem one_le_of_mem_placeholders {k : Nat} : ∀ {fs : List Shape}, k ∈ placeholders fs → 1 ≤ k
  | [], h => by
    rw [placeholders] at h
    cases h
  | f :: fs, h => by
    rw [placeholders, List.mem_append, List.mem_append, List.mem_append] at h
    rcases h with h | h | h | h
    · exact one_le_of_mem_scriptNumbers h
    · cases f with
      | literal text => exact one_le_of_mem_numbers h
      | empty | group | script | command | block => cases h
    · exact one_le_of_mem_placeholdersInside h
    · exact one_le_of_mem_placeholders h

end

theorem isSome_argument?_iff (h : 1 ≤ k) :
    (argument? arguments k).isSome = true ↔ k ≤ arguments.length := by
  obtain ⟨i, rfl⟩ := Nat.exists_eq_add_of_le' h
  rw [argument?, Option.isSome_map, Nat.succ_le_iff]
  simp

/-- Substitution goes through if no placeholder asks for more than there is. -/
theorem fillRow_cases (arguments : List Shape) (h : NeatRow fs) :
    ((∀ k ∈ placeholders fs, k ≤ arguments.length) ∧
        fillRow arguments fs = some (substitute (brought arguments) fs)) ∨
      (∃ k ∈ placeholders fs, arguments.length < k) ∧ fillRow arguments fs = none := by
  rw [fillRow_eq arguments h, given]
  by_cases hall : ∀ k ∈ placeholders fs, k ≤ arguments.length
  · refine Or.inl ⟨hall, if_pos (List.all_eq_true.mpr fun k hk => ?_)⟩
    exact (isSome_argument?_iff (one_le_of_mem_placeholders hk)).mpr (hall k hk)
  · obtain ⟨k, hk, hlt⟩ : ∃ k ∈ placeholders fs, arguments.length < k := by
      simpa only [not_forall, not_le, exists_prop] using hall
    refine Or.inr ⟨⟨k, hk, hlt⟩, if_neg fun hsome => Nat.not_le_of_lt hlt ?_⟩
    exact (isSome_argument?_iff (one_le_of_mem_placeholders hk)).mp (List.all_eq_true.mp hsome k hk)

end

end Shape

/-! ## The body of a use -/

/-- A group of the store with the elements it holds. -/
def Tree.HoldsGroup (t : Tree) (id : NodeId) (f : Shape) : Prop :=
  ∃ fence inner fs, t.node id = .group fence inner ∧ t.Holds inner fs ∧ f = .group fence fs

section

open Plan Shape

variable {d : Definition} {m : Macro} {t : Tree} {up : Option NodeId} {id : NodeId} {ps : List Plan}

theorem run_instantiated (hd : d.StandsFor m) (hm : NeatRow m.body) (hps : Loose t ps)
    (hn : (idsOf ps).Nodup) (hroot : t.root < t.size) (harity : ps.length = d.arity) (place : Span) :
    (∃ first t₁ fs, (d.instantiated (ps.map Plan.id) place).run.run t = (.ok first, t₁) ∧
        t₁.Holds first fs ∧ fillRow (shapes ps) m.body = some fs) ∨
      fillRow (shapes ps) m.body = none ∧ ∃ e t₁,
        (d.instantiated (ps.map Plan.id) place).run.run t = (.error (.expansion e), t₁) ∧
          e.code = .placeholderOutOfRange := by
  rcases attempts_instantiated hd (fun _ : True => hm) hps hn hroot harity place with
    ⟨first, t₁, hrun, body, htrades, hfits, hfirst, hsome⟩ | ⟨hnone, x, t₁, hrun, hfault, -⟩
  · exact Or.inl ⟨first, t₁, rowShapes body, hrun,
      ⟨none, body, hfits, htrades.nodup, hfirst, rfl⟩, hsome⟩
  · obtain ⟨e, rfl, hcode⟩ := hfault trivial
    exact Or.inr ⟨hnone, e, t₁, hrun, hcode⟩

theorem AllLive.holdsGroup (h : AllLive t up ps) :
    List.Forall₂ t.HoldsGroup (ps.map Plan.id) (shapes ps) := by
  induction ps with
  | nil =>
    rw [shapes_nil]
    exact .nil
  | cons p ps ih =>
    obtain ⟨hp, hgroup, hps⟩ := h.cons
    rw [shapes_cons]
    refine .cons ?_ (ih hps)
    cases p with
    | group n fence inner =>
      obtain ⟨hinner, first, hfirst⟩ := hp.inner
      have hnode := hp.fits.node
      rw [top, hfirst] at hnode
      exact ⟨fence, first, rowShapes inner, hnode,
        ⟨_, inner, hinner.fits, hinner.nodup, hfirst, rfl⟩, by rw [shape]⟩
    | literal | empty | script | command | block =>
      rw [shape] at hgroup
      cases hgroup

/-- A use that expansion comes to with as many arguments as its macro has stands for the body with
all its placeholders substituted at once, and takes the place of the use; or else there is a
placeholder that asks for an argument beyond these, and the use fails for it. -/
theorem expand_substitutes_at_once {source : String} {steps : Nat} {t₀ : Tree} {ds₀ ds : Definitions}
    {name : String} {arguments : List NodeId} (hparse : Tree.parseMath source = .ok t₀)
    (hds : ds₀.Reached) (hshown : Definitions.Shown steps (t₀, ds₀) id (t, ds))
    (hnode : t.node id = .command name arguments) (hfind : ds.find? name = some d)
    (harity : arguments.length = d.arity) :
    ∃ body groups, d.body.Depicts body ∧ List.Forall₂ t.HoldsGroup arguments groups ∧
      (((∀ k ∈ placeholders body, k ≤ d.arity) ∧
          ∃ first t₁ t₂, (d.instantiated arguments (t.span id)).run.run t = (.ok first, t₁) ∧
            t₁.Holds first (substitute (brought groups) body) ∧
            (d.expand id).run.run t = (.ok (), t₂)) ∨
        ((∃ k ∈ placeholders body, d.arity < k) ∧
          ∃ e t₁, (d.instantiated arguments (t.span id)).run.run t = (.error (.expansion e), t₁) ∧
            (d.expand id).run.run t = (.error (.expansion e), t₁) ∧
            e.code = .placeholderOutOfRange)) := by
  obtain ⟨hmeets, ms, hknown⟩ := hshown.meets hparse hds
  obtain ⟨ps, rfl, hplace⟩ := hmeets.command hnode
  obtain ⟨m, hdm, hm⟩ : ∃ m, d.StandsFor m ∧ NeatRow m.body := by
    rcases hknown.find? name with ⟨hnone, -⟩ | ⟨d', m, hfind', -, hdm, hm⟩
    · cases hfind.symm.trans hnone
    · cases hfind.symm.trans hfind'
      exact ⟨m, hdm, hm⟩
  have hlength : (shapes ps).length = d.arity := by
    rw [← harity, shapes_eq_map, List.length_map, List.length_map]
  have hparameters : (t.node id).parameters = ps.map Plan.id := congrArg Node.parameters hnode
  -- What is done with the body does not depend on whether the use is an element or an operand.
  obtain ⟨hps, hroot, hexpand⟩ : (∃ up, AllLive t up ps) ∧ t.root < t.size ∧
      ((∃ fs t', (d.expand id).run.run t = (.ok (), t') ∧ m.instantiate (shapes ps) = .ok fs) ∨
        ∃ code, m.instantiate (shapes ps) = .error code) := by
    rcases hplace with ⟨up, cell, row, hlive⟩ | ⟨up, s, marker, hlive⟩
    · refine ⟨⟨_, hlive.element.parameters.1⟩, hlive.root_lt, ?_⟩
      rcases run_expand_cell hdm (fun _ : True => hm) hlive.fits hlive.nodup hlive.root_lt with
        ⟨fs, t', hrun, hok, -⟩ | ⟨x, code, t', -, herror, -⟩
      · exact Or.inl ⟨fs, t', hrun, hok⟩
      · exact Or.inr ⟨code, herror⟩
    · refine ⟨⟨_, hlive.operand.1.parameters.1⟩, hlive.root_lt, ?_⟩
      have hk : (Part.element (script s marker (command id name ps))).children[0]? =
          some (.element (command id name ps)) := rfl
      rcases run_expand_alone hdm (fun _ : True => hm) hk rfl hlive.fits hlive.nodup hlive.root_lt with
        ⟨fs, t', hrun, hok, -⟩ | ⟨x, code, t', -, herror, -⟩
      · exact Or.inl ⟨fs, t', hrun, hok⟩
      · exact Or.inr ⟨code, herror⟩
  obtain ⟨up, hall⟩ := hps
  refine ⟨m.body, shapes ps, hdm.body, hall.holdsGroup, ?_⟩
  have hinstance := run_instantiated hdm hm hall.fits.loose hall.nodup hroot
    (by rwa [List.length_map] at harity) (t.span id)
  rw [← hlength]
  rcases fillRow_cases (shapes ps) hm with ⟨hasked, hsome⟩ | ⟨hasked, hnone⟩
  · rcases hinstance with ⟨first, t₁, fs, hrun, hholds, hfs⟩ | ⟨hnone, -⟩
    · cases hsome.symm.trans hfs
      refine Or.inl ⟨hasked, first, t₁, ?_⟩
      rcases hexpand with ⟨fs, t₂, hexpand, -⟩ | ⟨code, herror⟩
      · exact ⟨t₂, hrun, hholds, hexpand⟩
      · rw [Macro.instantiate, if_neg fun hne => hne (hlength.trans hdm.arity_eq), hsome] at herror
        cases herror
    · cases hsome.symm.trans hnone
  · rcases hinstance with ⟨first, t₁, fs, -, -, hfs⟩ | ⟨-, e, t₁, hrun, hcode⟩
    · cases hnone.symm.trans hfs
    · refine Or.inr ⟨hasked, e, t₁, hrun, ?_, hcode⟩
      rw [run_expand_eq (by rw [hparameters, harity]), hparameters]
      exact Edit.run_bind_of_error hrun

/-- Placeholders next to each other, the first of them after a marker, and an argument that looks like
a placeholder. -/
theorem expand_substitutes_at_once_adjacent :
    let before := r"\newcommand{\p}[2]{x^#1#2}"
    let use := r"\p{#2}{ab}"
    ∃ t₀ t₁ ds t d body groups first t₂ t₃, Tree.parseMath before = .ok t₀ ∧
      (Definitions.expandAll 40).run.run (t₀, .empty) = some (.ok (), t₁, ds) ∧
      Tree.parseMath use = .ok t ∧ Definitions.Shown 20 (t, ds) 6 (t, ds) ∧
      t.node 6 = .command "p" [2, 5] ∧ ds.find? "p" = some d ∧ d.arity = 2 ∧
      d.body.Depicts body ∧ List.Forall₂ t.HoldsGroup [2, 5] groups ∧
      (d.instantiated [2, 5] (t.span 6)).run.run t = (.ok first, t₂) ∧
      t₂.Holds first (substitute (brought groups) body) ∧
      (d.expand 6).run.run t = (.ok (), t₃) ∧ t₃.text = "x^{#2}ab" := by
  intro before use
  have hran : ((Definitions.empty.expanded? 40 before).bind fun out₀ =>
      (Tree.parseMath use).toOption.bind fun t => (out₀.2.2.find? "p").map fun d =>
        ((((do Walk.through Definitions.visitor 20 (← Walk.tree).root :
            Walk Definitions Fault Unit).run.run (t, out₀.2.2)).isSome,
          ((do Walk.through (Definitions.visitor.haltedAt 6 (t, out₀.2.2)) 20 (← Walk.tree).root :
            Walk Definitions Fault Unit).run.run (t, out₀.2.2)).isSome),
          t.node 6, d.arity, ((d.expand 6).run.run t).1.isOk, ((d.expand 6).run.run t).2.text)) =
      some ((true, false), .command "p" [2, 5], 2, true, "x^{#2}ab") := by
    decide +kernel
  obtain ⟨⟨t₀, t₁, ds⟩, hbefore, hran⟩ := Option.bind_eq_some_iff.mp hran
  obtain ⟨t, hparse, hran⟩ := Option.bind_eq_some_iff.mp hran
  obtain ⟨d, hfind, hout⟩ := Option.map_eq_some_iff.mp hran
  simp only [Prod.mk.injEq] at hout
  obtain ⟨⟨hends, hhalts⟩, hnode, harity, hok, htext⟩ := hout
  obtain ⟨hparse₀, hrun₀⟩ := Definitions.expanded?_eq_some hbefore
  replace hparse := Tree.eq_ok_of_toOption hparse
  have hshown : Definitions.Shown 20 (t, ds) 6 (t, ds) := .of_halted hends hhalts
  obtain ⟨body, groups, hbody, hgroups, ⟨-, first, t₂, t₃, hinstance, hholds, hexpand⟩ |
    ⟨-, e, t₂, -, hexpand, -⟩⟩ := expand_substitutes_at_once hparse (.expand .empty hparse₀ hrun₀)
      hshown hnode hfind harity.symm
  · rw [hexpand] at htext
    exact ⟨t₀, t₁, ds, t, d, body, groups, first, t₂, t₃, hparse₀, hrun₀, hparse, hshown, hnode,
      hfind, harity, hbody, hgroups, hinstance, hholds, hexpand, htext⟩
  · rw [hexpand] at hok
    cases hok

end

end Formulary
