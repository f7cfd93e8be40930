import Formulary.Proofs.Names
import Mathlib.Logic.Relation
import Mathlib.Data.Finset.Card
import Mathlib.Order.Monotone.Defs

/-!
# Weights

The weight of a shape is a number of steps that suffices to expand it. A use of a macro weighs more
than what it stands for: to its own weight comes a price that grows with the weight of its
arguments. The price of a macro is the weight of its body, in which each character of a literal
counts for as much as all arguments together, since it may be a placeholder.

* `Macro.Affords.weightOf_instantiate`: an instance weighs no more than the price of its use.
* `Macro.exists_affords`: there are such prices if the macros can be ranked so that bodies only hold
  commands of lower rank.
* `exists_rank`: there are ranks if no macro uses itself, directly or through others.
-/

namespace Formulary

namespace Shape

section

variable (prices : String → Nat → Nat) (unit : Nat)

mutual

/-- The weight of an element, with `unit` for each character. -/
def weight : Shape → Nat
  | .literal text => 1 + unit * text.toList.length
  | .empty => 1
  | .group _ inner => 2 + weightOf inner
  | .script _ operand => 2 + unit + operand.weight
  | .command name parameters => 5 + weightOf parameters + prices name (5 + weightOf parameters)
  | .block _ parameters body => 3 + weightOf parameters + weightOf body

/-- The weight of some elements. -/
def weightOf : List Shape → Nat
  | [] => 0
  | f :: fs => 1 + f.weight + weightOf fs

end

end

section

variable {prices prices' : String → Nat → Nat} {unit unit' : Nat}

@[simp] theorem weightOf_nil : weightOf prices unit [] = 0 := by rw [weightOf]

@[simp] theorem weightOf_cons (f : Shape) (fs : List Shape) :
    weightOf prices unit (f :: fs) = 1 + f.weight prices unit + weightOf prices unit fs := by
  rw [weightOf]

@[simp] theorem weightOf_append (fs gs : List Shape) :
    weightOf prices unit (fs ++ gs) = weightOf prices unit fs + weightOf prices unit gs := by
  induction fs with
  | nil => simp
  | cons f fs ih =>
    rw [List.cons_append, weightOf_cons, ih, weightOf_cons]
    omega

variable (prices unit) in
theorem weight_pos (f : Shape) : 0 < f.weight prices unit := by
  cases f <;> rw [weight] <;> omega

variable (prices unit) in
theorem weightOf_chain_le (fs : List Shape) :
    weightOf prices unit (chain fs) ≤ 2 + weightOf prices unit fs := by
  cases fs with
  | nil => simp [weight]
  | cons f fs => simp

variable (prices unit) in
theorem weightOf_contents_le (fs : List Shape) :
    weightOf prices unit (contents fs) ≤ weightOf prices unit fs := by
  unfold contents
  split
  · simp
  · exact Nat.le_refl _

variable (prices unit) in
theorem weight_asOperand_le (fs : List Shape) :
    (asOperand fs).weight prices unit ≤ 4 + weightOf prices unit fs := by
  unfold asOperand
  split
  · rename_i f
    rw [weightOf_cons]
    split
    · omega
    · rw [weight, weightOf_cons, weightOf_nil]
      omega
  · have hchain := weightOf_chain_le prices unit fs
    rw [weight]
    omega

variable (prices unit) in
theorem weight_le_of_mem {f : Shape} {fs : List Shape} (h : f ∈ fs) :
    f.weight prices unit ≤ weightOf prices unit fs := by
  induction fs with
  | nil => cases h
  | cons g fs ih =>
    rw [weightOf_cons]
    rcases List.mem_cons.mp h with rfl | hmem
    · omega
    · have := ih hmem
      omega

variable (prices unit) in
theorem weightOf_le_of_suffix {fs gs : List Shape} (h : fs <:+ gs) :
    weightOf prices unit fs ≤ weightOf prices unit gs := by
  obtain ⟨before, rfl⟩ := h
  rw [weightOf_append]
  exact Nat.le_add_left _ _

variable (prices unit) in
theorem weightOf_filter_le (test : Shape → Bool) (fs : List Shape) :
    weightOf prices unit (fs.filter test) ≤ weightOf prices unit fs := by
  induction fs with
  | nil => simp
  | cons f fs ih =>
    rw [List.filter_cons]
    split
    · simpa using ih
    · rw [weightOf_cons]
      omega

/-! ## Changing the prices and the unit -/

mutual

/-- The weight depends on the prices of its commands only. -/
theorem weight_congr : ∀ {f : Shape}, (∀ name ∈ f.commands, prices name = prices' name) →
    f.weight prices unit = f.weight prices' unit
  | .literal text, _ | .empty, _ => by rw [weight, weight]
  | .group fence inner, h => by
    rw [commands] at h
    rw [weight, weight, weightOf_congr h]
  | .script marker operand, h => by
    rw [commands] at h
    rw [weight, weight, weight_congr h]
  | .command name parameters, h => by
    rw [commands, List.forall_mem_cons] at h
    rw [weight, weight, weightOf_congr h.2, h.1]
  | .block name parameters body, h => by
    rw [commands, List.forall_mem_append] at h
    rw [weight, weight, weightOf_congr h.1, weightOf_congr h.2]

/-- Only the prices of the commands that are there count. -/
theorem weightOf_congr : ∀ {fs : List Shape}, (∀ name ∈ commandsOf fs, prices name = prices' name) →
    weightOf prices unit fs = weightOf prices' unit fs
  | [], _ => by rw [weightOf_nil, weightOf_nil]
  | f :: fs, h => by
    rw [commandsOf_cons, List.forall_mem_append] at h
    rw [weightOf_cons, weightOf_cons, weight_congr h.1, weightOf_congr h.2]

end

mutual

/-- Characters that weigh more make no element lighter. -/
theorem weight_mono (hprices : ∀ name, Monotone (prices name)) (h : unit ≤ unit') :
    ∀ f : Shape, f.weight prices unit ≤ f.weight prices unit'
  | .literal text => by
    rw [weight, weight]
    exact Nat.add_le_add_left (Nat.mul_le_mul_right _ h) 1
  | .empty => by rw [weight, weight]
  | .group fence inner => by
    have := weightOf_mono hprices h inner
    rw [weight, weight]
    omega
  | .script marker operand => by
    have := weight_mono hprices h operand
    rw [weight, weight]
    omega
  | .command name parameters => by
    have hweight := weightOf_mono hprices h parameters
    have hprice := hprices name (Nat.add_le_add_left hweight 5)
    rw [weight, weight]
    omega
  | .block name parameters body => by
    have := weightOf_mono hprices h parameters
    have := weightOf_mono hprices h body
    rw [weight, weight]
    omega

/-- Text weighs more with a larger unit. -/
theorem weightOf_mono (hprices : ∀ name, Monotone (prices name)) (h : unit ≤ unit') :
    ∀ fs : List Shape, weightOf prices unit fs ≤ weightOf prices unit' fs
  | [] => by rw [weightOf_nil, weightOf_nil]
  | f :: fs => by
    have := weight_mono hprices h f
    have := weightOf_mono hprices h fs
    rw [weightOf_cons, weightOf_cons]
    omega

end

/-! ## Instances of macros -/

section

variable {arguments : List Shape}

variable (prices unit) in
theorem weightOf_argument? {index : Nat} {fs : List Shape}
    (h : argument? arguments index = some fs) :
    weightOf prices unit fs ≤ weightOf prices unit arguments := by
  cases index with
  | zero => cases h
  | succ index =>
    rw [argument?] at h
    obtain ⟨f, hf, rfl⟩ := Option.map_eq_some_iff.mp h
    have hle := weight_le_of_mem prices unit (List.mem_of_getElem? hf)
    cases f with
    | group fence inner =>
      have hfilter := weightOf_filter_le prices unit (fun f => !f.isEmpty) inner
      rw [weight] at hle
      rw [argumentElements]
      omega
    | literal | empty | script | command | block => simp [argumentElements]

theorem length_split_le (text : List Char) : (Piece.split text).length ≤ text.length := by
  have hcons : ∀ (c : Char) (pieces : List Piece),
      (Piece.consChar c pieces).length ≤ pieces.length + 1 := by
    intro c pieces
    unfold Piece.consChar
    split <;> simp
  fun_induction Piece.split text with
  | case1 => simp
  | case2 => simp
  | case3 c d rest index _ ih =>
    simp only [List.length_cons]
    omega
  | case4 c d rest _ ih =>
    have := hcons c (Piece.split (d :: rest))
    simp only [List.length_cons] at ih ⊢
    omega

variable (prices) in
/-- Each piece of a text weighs no more than a character may. -/
theorem weightOf_filledPieces {pieces : List Piece} {gs : List Shape}
    (h : FilledPieces arguments pieces gs) :
    weightOf prices 0 gs ≤ (5 + weightOf prices 0 arguments) * pieces.length := by
  induction h with
  | nil => simp
  | text _ ih =>
    rw [List.length_cons, Nat.mul_succ, weightOf_cons, weight]
    omega
  | argument helements _ ih =>
    have := weightOf_argument? prices 0 helements
    rw [List.length_cons, Nat.mul_succ, weightOf_append]
    omega

variable (prices) in
/-- A bound on what a text weighs once it is filled in. -/
theorem weightOf_fillText {text : List Char} {gs : List Shape}
    (h : fillText arguments text = some gs) :
    weightOf prices 0 gs ≤ 2 + (5 + weightOf prices 0 arguments) * text.length := by
  rw [fillText] at h
  split at h
  · obtain ⟨fs, hfs, heq⟩ := Option.bind_eq_some_iff.mp h
    obtain rfl := Option.some.inj heq
    calc weightOf prices 0 (chain fs) ≤ 2 + weightOf prices 0 fs := weightOf_chain_le prices 0 fs
      _ ≤ 2 + (5 + weightOf prices 0 arguments) * (Piece.split text).length :=
        Nat.add_le_add_left (weightOf_filledPieces prices (filledPieces hfs)) 2
      _ ≤ 2 + (5 + weightOf prices 0 arguments) * text.length :=
        Nat.add_le_add_left (Nat.mul_le_mul_left _ (length_split_le text)) 2
  · obtain rfl := Option.some.inj h
    rw [weightOf_cons, weight, weightOf_nil]
    omega

variable (prices) in
theorem weightOf_fillRest {text : List Char} {gs : List Shape}
    (h : fillRest arguments text = some gs) :
    weightOf prices 0 gs ≤ 2 + (5 + weightOf prices 0 arguments) * text.length := by
  rw [fillRest] at h
  split at h
  · obtain rfl := Option.some.inj h
    simp
  · exact weightOf_fillText prices h

/-- What an element becomes weighs no more than the element, with the weight of the arguments for
each of its characters. -/
theorem fills_weight (hprices : ∀ name, Monotone (prices name)) : Fills arguments
    (fun f gs => weightOf prices 0 gs ≤ 1 + f.weight prices (5 + weightOf prices 0 arguments))
    (fun fs gs => weightOf prices 0 gs ≤ weightOf prices (5 + weightOf prices 0 arguments) fs) where
  literal {text gs} hsome := by
    have := weightOf_fillText prices hsome
    rw [weight]
    omega
  empty := by simp [weight]
  group fence fs gs _ h := by
    simp only [weightOf_cons, weightOf_nil, weight]
    omega
  script marker f g _ h := by
    simp only [weightOf_cons, weightOf_nil, weight] at h ⊢
    omega
  command name fs gs _ h := by
    have := hprices name (Nat.add_le_add_left h 5)
    simp only [weightOf_cons, weightOf_nil, weight]
    omega
  block name fs gs fs' gs' _ _ h h' := by
    simp only [weightOf_cons, weightOf_nil, weight]
    omega
  nil := by simp
  cons {f fs gs gs'} h h' := by
    rw [weightOf_append, weightOf_cons]
    omega
  placeholder marker text c rest index operand between fs gs htext _ hoperand hbetween h := by
    have hargument := weightOf_argument? prices 0 hoperand
    have hasOperand := weight_asOperand_le prices 0 operand
    have hrest := weightOf_fillRest prices hbetween
    have hchain := weightOf_chain_le prices 0 (between ++ gs)
    rw [weightOf_append] at hchain
    simp only [weightOf_cons, weight, htext, List.length_cons, Nat.mul_succ]
    omega

end

end

end Shape

/-! ## Prices -/

namespace Macro

open Shape

/-- Prices that grow with the weight of the arguments, and that cover the bodies of some macros. -/
structure Affords (prices : String → Nat → Nat) (ms : List Macro) : Prop where
  mono : ∀ name, Monotone (prices name)
  covers : ∀ m ∈ ms, ∀ unit, weightOf prices unit m.body ≤ prices m.name unit

/-- An instance weighs no more than the price of its use. -/
theorem Affords.weightOf_instantiate {prices : String → Nat → Nat} {ms : List Macro} {m : Macro}
    {arguments gs : List Shape} (h : Affords prices ms) (hm : m ∈ ms)
    (hgs : m.instantiate arguments = .ok gs) :
    weightOf prices 0 gs ≤ prices m.name (5 + weightOf prices 0 arguments) :=
  ((fills_weight h.mono).fillRow (fillRow_of_instantiate hgs)).trans (h.covers m hm _)

/-- Prices that take uses in bodies into account up to a depth: the sum of what the bodies of all
macros with a name weigh. -/
def pricesUpTo (ms : List Macro) : Nat → String → Nat → Nat
  | 0, _, _ => 0
  | depth + 1, name, unit =>
    ms.foldr (fun m total =>
      (if m.name = name then weightOf (pricesUpTo ms depth) unit m.body else 0) + total) 0

variable {ms : List Macro}

theorem le_foldr {ms : List Macro} {m : Macro} (h : m ∈ ms) (f : Macro → Nat) :
    f m ≤ ms.foldr (fun m total => f m + total) 0 := by
  induction ms with
  | nil => cases h
  | cons x ms ih =>
    rw [List.foldr_cons]
    rcases List.mem_cons.mp h with rfl | hmem
    · exact Nat.le_add_right _ _
    · exact (ih hmem).trans (Nat.le_add_left _ _)

theorem foldr_le_foldr (ms : List Macro) {f g : Macro → Nat} (h : ∀ m, f m ≤ g m) :
    ms.foldr (fun m total => f m + total) 0 ≤ ms.foldr (fun m total => g m + total) 0 := by
  induction ms with
  | nil => exact Nat.le_refl _
  | cons x ms ih => exact Nat.add_le_add (h x) ih

theorem weightOf_le_pricesUpTo {m : Macro} (hm : m ∈ ms) (depth unit : Nat) :
    weightOf (pricesUpTo ms depth) unit m.body ≤ pricesUpTo ms (depth + 1) m.name unit := by
  have hle := le_foldr hm fun m' =>
    if m'.name = m.name then weightOf (pricesUpTo ms depth) unit m'.body else 0
  rw [if_pos rfl] at hle
  exact hle

theorem monotone_pricesUpTo (ms : List Macro) (depth : Nat) (name : String) :
    Monotone (pricesUpTo ms depth name) := by
  induction depth generalizing name with
  | zero => exact fun _ _ _ => Nat.le_refl _
  | succ depth ih =>
    intro unit unit' hle
    refine foldr_le_foldr ms fun m => ?_
    split
    · exact weightOf_mono ih hle m.body
    · exact Nat.le_refl _

section

variable {rank : String → Nat}
  (hrank : ∀ m ∈ ms, ∀ name ∈ commandsOf m.body, rank name < rank m.name)

include hrank

/-- Looking deeper than the rank of a macro does not change its price. -/
theorem pricesUpTo_eq {name : String} {depth : Nat} (h : rank name < depth) :
    pricesUpTo ms depth name = pricesUpTo ms (depth + 1) name := by
  induction depth generalizing name with
  | zero => exact absurd h (Nat.not_lt_zero _)
  | succ depth ih =>
    funext unit
    rw [pricesUpTo, pricesUpTo]
    refine List.foldr_ext _ _ 0 fun m hm total => ?_
    split
    · rename_i hname
      subst hname
      rw [weightOf_congr fun name hmem => ih ?_]
      exact (hrank m hm name hmem).trans_le (Nat.le_of_lt_succ h)
    · rfl

/-- Macros whose bodies only hold commands of lower rank have prices. -/
theorem exists_affords : ∃ prices, Affords prices ms := by
  obtain ⟨depth, hdepth⟩ : ∃ depth, ∀ m ∈ ms, rank m.name < depth := by
    refine ⟨ms.foldr (fun m total => (rank m.name + 1) + total) 0, fun m hm => ?_⟩
    exact le_foldr hm fun m => rank m.name + 1
  refine ⟨pricesUpTo ms depth, monotone_pricesUpTo ms depth, fun m hm unit => ?_⟩
  rw [pricesUpTo_eq hrank (hdepth m hm)]
  exact weightOf_le_pricesUpTo hm depth unit

end

end Macro

/-! ## Ranks -/

/-- Names of which no one uses itself, directly or through others, can be ranked: each uses only
names of lower rank. -/
theorem exists_rank {uses : String → String → Prop} {names : List String}
    (hnames : ∀ m n, uses m n → n ∈ names) (hacyclic : ∀ name, ¬Relation.TransGen uses name name) :
    ∃ rank : String → Nat, ∀ m n, uses m n → rank n < rank m := by
  classical
  -- The rank of a name is the number of names that it uses, directly or through others.
  refine ⟨fun m => (names.toFinset.filter (Relation.TransGen uses m)).card, fun m n huses => ?_⟩
  refine Finset.card_lt_card (Finset.ssubset_iff_of_subset ?_ |>.mpr ⟨n, ?_, ?_⟩)
  · intro name hname
    rw [Finset.mem_filter] at hname ⊢
    exact ⟨hname.1, .head huses hname.2⟩
  · rw [Finset.mem_filter, List.mem_toFinset]
    exact ⟨hnames m n huses, .single huses⟩
  · rw [Finset.mem_filter]
    exact fun hname => hacyclic n hname.2

end Formulary
