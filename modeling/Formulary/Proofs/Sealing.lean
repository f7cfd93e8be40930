import Formulary.Proofs.Scanning
import Formulary.Proofs.Skipping

/-!
# Fixed formulas are sealed

A formula between the delimiters of a document is sealed: no dollar in it is free, and no backslash
reaches beyond it. Fixing keeps it so. A dollar comes right after a backslash, so it is read as the
name of a command, and no literal ever holds one; and no program cuts a literal between a backslash
and the character after it.

`Trait.ofSealed` is the trait that says so of a formula. The bodies of macros have it if they were
taken out of documents (`Definitions.Gathered`).
-/

namespace Formulary

open BlockMarker (isName)
open Shape (Written)

variable {cs : List Char} {c : Char}

/-! ## Literals -/

theorem Sealed.of_forall (h : ∀ c ∈ cs, isScannerSign c = false) : Sealed cs := by
  induction cs with
  | nil => exact .nil
  | cons c cs ih =>
    rw [List.forall_mem_cons] at h
    exact .cons h.1 (ih h.2)

theorem Sealed.of_cons (h : Sealed (c :: cs)) (hc : c ≠ '\\') :
    isScannerSign c = false ∧ Sealed cs := by
  cases h with
  | cons hc h => exact ⟨hc, h⟩
  | escape => exact absurd rfl hc

theorem Sealed.of_escape (h : Sealed ('\\' :: c :: cs)) : Sealed cs := by
  cases h with
  | cons hc _ => cases hc
  | escape _ h => exact h

theorem isScannerSign_of_isPlain (h : isPlain c = true) (hc : c ≠ '$') :
    isScannerSign c = false := by
  refine isScannerSign_eq_false_iff.mpr ⟨hc, ?_⟩
  rintro rfl
  cases h

/-- The text of a literal is sealed if it has no dollar. -/
theorem sealed_of_written (h : Written none cs) (hdollar : '$' ∉ cs) : Sealed cs := by
  induction h with
  | nil => exact .nil
  | plain hc _ ih =>
    rw [List.mem_cons, not_or] at hdollar
    exact .cons (isScannerSign_of_isPlain hc (Ne.symm hdollar.1)) (ih hdollar.2)
  | bracket hs _ _ ih =>
    rw [List.mem_cons, not_or] at hdollar
    refine .cons ?_ (ih hdollar.2)
    rcases hs with rfl | rfl <;> rfl
  | escape s _ ih =>
    rw [List.mem_cons, List.mem_cons, not_or, not_or] at hdollar
    exact .escape s.char (ih hdollar.2.2)

/-- The text between placeholders is part of the literal. -/
theorem Piece.mem_of_mem_split {run : List Char} (h : .text run ∈ Piece.split cs) {e : Char}
    (he : e ∈ run) : e ∈ cs := by
  fun_induction Piece.split cs generalizing run with
  | case1 => cases h
  | case2 c =>
    obtain rfl := Piece.text.inj (List.mem_singleton.mp h)
    exact he
  | case3 c d rest index hindex ih =>
    have hrest := ih (List.mem_of_ne_of_mem (by simp) h) he
    exact List.mem_cons_of_mem c (List.mem_cons_of_mem d hrest)
  | case4 c d rest hnone ih =>
    generalize Piece.split (d :: rest) = pieces at h ih
    revert h
    fun_cases Piece.consChar c pieces
    · rename_i first pieces
      intro h
      rcases List.mem_cons.mp h with heq | h
      · obtain rfl := Piece.text.inj heq
        rcases List.mem_cons.mp he with rfl | he
        · exact List.mem_cons_self
        · exact List.mem_cons_of_mem c (ih List.mem_cons_self he)
      · exact List.mem_cons_of_mem c (ih (List.mem_cons_of_mem _ h) he)
    · intro h
      rcases List.mem_cons.mp h with heq | h
      · obtain rfl := Piece.text.inj heq
        rw [List.mem_singleton] at he
        exact he ▸ List.mem_cons_self
      · exact List.mem_cons_of_mem c (ih h he)

/-- The text of a literal without a dollar. -/
def Inert (s : String) : Prop := Written none s.toList ∧ '$' ∉ s.toList

namespace Inert

variable {s s' : String}

theorem append (h : Inert s) (h' : Inert s') : Inert (s ++ s') := by
  rw [Inert, String.toList_append, List.mem_append, not_or]
  exact ⟨h.1.append h'.1, h.2, h'.2⟩

theorem piece {run : List Char} (h : Inert s) (hrun : .text run ∈ Piece.split s.toList) :
    Inert (String.ofList run) := by
  rw [Inert, String.toList_ofList]
  exact ⟨(h.1.neatPieces _ hrun).2, fun hdollar => h.2 (Piece.mem_of_mem_split hrun hdollar)⟩

theorem afterDigit {c : Char} {rest : List Char} {index : Nat} (h : Inert s)
    (hs : s.toList = c :: rest) (hdigit : argumentDigit? c = some index) :
    Inert (String.ofList rest) := by
  rw [Inert, hs, List.mem_cons, not_or] at h
  rw [Inert, String.toList_ofList]
  exact ⟨h.1.tail (Shape.isPlain_of_digit hdigit), h.2.2⟩

theorem trimLeft (h : Inert s) : Inert (Text.trimLeft s) := by
  refine ⟨h.1.trimLeft, fun hdollar => h.2 ?_⟩
  rw [Text.trimLeft, String.toList_ofList] at hdollar
  exact (List.dropWhile_suffix _).mem hdollar

theorem trimRight (h : Inert s) : Inert (Text.trimRight s) := by
  refine ⟨h.1.trimRight, fun hdollar => h.2 ?_⟩
  rw [Text.trimRight, String.toList_ofList, List.mem_reverse] at hdollar
  exact List.mem_reverse.mp ((List.dropWhile_suffix _).mem hdollar)

theorem lineBreak : Inert "\n" := ⟨.plain rfl .nil, by decide⟩

theorem bracket {s : Symbol} (h : s = .leftBracket ∨ s = .rightBracket) :
    Inert (String.ofList [s.char]) := by
  rw [Inert, String.toList_ofList]
  refine ⟨.bracket h (Option.some_ne_none s).symm .nil, ?_⟩
  rcases h with rfl | rfl <;> decide

theorem escape (s : Symbol) : Inert (String.ofList [Symbol.backslash.char, s.char]) := by
  rw [Inert, String.toList_ofList]
  refine ⟨.escape s .nil, ?_⟩
  cases s <;> decide

/-- A run of text in sealed text. -/
theorem of_plain {run rest : List Char} (hrun : ∀ c ∈ run, isPlain c = true)
    (h : Sealed (run ++ rest)) : Inert (String.ofList run) := by
  rw [Inert, String.toList_ofList]
  refine ⟨.of_plain hrun, ?_⟩
  induction run with
  | nil => exact List.not_mem_nil
  | cons c run ih =>
    rw [List.forall_mem_cons] at hrun
    have hbackslash : c ≠ '\\' := by
      rintro rfl
      cases hrun.1
    obtain ⟨hc, hrest⟩ := h.of_cons hbackslash
    rw [List.mem_cons, not_or]
    refine ⟨?_, ih hrun.2 hrest⟩
    rintro rfl
    cases hc

end Inert

/-! ## Formulas -/

theorem isScannerSign_of_isLetter (h : Text.isLetter c = true) : isScannerSign c = false := by
  refine isScannerSign_eq_false_iff.mpr ⟨?_, ?_⟩
  all_goals
    rintro rfl
    cases h

theorem isScannerSign_of_isName {name : String} (h : isName name = true) :
    ∀ c ∈ name.toList, isScannerSign c = false := by
  intro c hc
  rw [isName, Bool.and_eq_true, List.all_eq_true] at h
  rcases Bool.or_eq_true_iff.mp (h.2 c hc) with hletter | hstar
  · exact isScannerSign_of_isLetter (Text.isLetter_of_isAlpha hletter)
  · obtain rfl := eq_of_beq hstar
    rfl

namespace Trait

/-- Formulas whose text is sealed. Of a command it does not matter what its first character is, since
that comes right after the backslash. -/
def ofSealed : Trait where
  text := Inert
  command name := ∃ c cs, name.toList = c :: cs ∧ ∀ d ∈ cs, isScannerSign d = false
  block name := ∀ c ∈ name.toList, isScannerSign c = false
  place _ := True
  text_piece := Inert.piece
  text_afterDigit := Inert.afterDigit
  text_trimLeft := Inert.trimLeft
  text_trimRight := Inert.trimRight
  text_lineBreak := Inert.lineBreak
  text_lineBreak_append := Inert.append Inert.lineBreak
  text_append_lineBreak h := h.append Inert.lineBreak
  block_of_isName := isScannerSign_of_isName
  place_zero := trivial
  place_union _ _ := trivial
  place_start _ := trivial
  place_stop _ := trivial
  place_take _ := trivial

/-- Sealed texts stay so through every step. -/
theorem follows_ofSealed (source : List Char) : ofSealed.Follows source Sealed where
  place _ := trivial
  text_append := Inert.append
  text_plain := Inert.of_plain
  text_bracket := Inert.bracket
  text_escape := Inert.escape
  command_mark _ := ⟨_, [], String.toList_ofList, List.forall_mem_nil _⟩
  command_word h :=
    ⟨_, _, String.toList_ofList, fun d hd =>
      isScannerSign_of_isLetter (h d (List.mem_cons_of_mem _ hd))⟩
  fine_cons hc h := (h.of_cons hc).2
  fine_escape h := h.of_escape

/-- The text of a formula with the trait is sealed, as far down as it is written. -/
theorem OfTree.sealed_textUpTo {t : Tree} (h : ofSealed.OfTree t) (depth : Nat) (id : NodeId) :
    Sealed (t.textUpTo depth id).toList := by
  induction depth generalizing id with
  | zero => exact .nil
  | succ depth ih =>
    have hnode := h.node id
    have hjoin : ∀ ids : List NodeId, Sealed (String.join (ids.map (t.textUpTo depth))).toList := by
      intro ids
      induction ids with
      | nil => exact .nil
      | cons id ids ihs =>
        rw [List.map_cons, String.join_cons, String.toList_append]
        exact (ih id).append ihs
    rw [Tree.textUpTo]
    cases hid : t.node id with
    | literal text =>
      rw [hid] at hnode
      exact sealed_of_written hnode.1 hnode.2
    | empty => exact .nil
    | sequence head tail =>
      cases tail with
      | none => exact ih head
      | some next =>
        dsimp only
        rw [String.toList_append]
        exact (ih head).append (ih next)
    | group fence inner =>
      dsimp only
      rw [String.toList_append, String.toList_append]
      have hfences : Sealed fence.opening.text.toList ∧ Sealed fence.closing.text.toList := by
        cases fence <;> exact ⟨.cons rfl .nil, .cons rfl .nil⟩
      exact (hfences.1.append (ih inner)).append hfences.2
    | script marker operand =>
      dsimp only
      rw [String.toList_append]
      have hmarker : Sealed marker.symbol.text.toList := by
        cases marker <;> exact .cons rfl .nil
      exact hmarker.append (ih operand)
    | command name parameters =>
      rw [hid] at hnode
      obtain ⟨c, cs, hname, hcs⟩ := hnode
      dsimp only
      -- The backslash takes the first character out of consideration, whatever it is.
      rw [String.toList_append, String.toList_append, hname]
      exact (Sealed.escape c (.of_forall hcs)).append (hjoin parameters)
    | block name parameters body =>
      rw [hid] at hnode
      have hname : Sealed name.toList := .of_forall hnode
      have hbegin : Sealed r"\begin{".toList :=
        .escape 'b' (.cons rfl (.cons rfl (.cons rfl (.cons rfl (.cons rfl .nil)))))
      have hend : Sealed r"\end{".toList := .escape 'e' (.cons rfl (.cons rfl (.cons rfl .nil)))
      have hclose : Sealed r"}".toList := .cons rfl .nil
      dsimp only
      simp only [String.toList_append]
      exact ((((((hbegin.append hname).append hclose).append (hjoin parameters)).append
        (ih body)).append hend).append hname).append hclose

end Trait

/-! ## Documents -/

/-- Definitions that are known after documents were fixed one after the other, whether or not that
failed, with any settings. -/
inductive Definitions.Gathered : Definitions → Prop
  | empty : Gathered .empty
  | fix {document : String} {steps : Nat} {c : Config} {ds ds' : Definitions}
    {r : Except Diagnosis Fixed} : Gathered ds →
      ((Fixer.ofConfig steps c).fixText document).run.run ds = some (r, ds') → Gathered ds'

section

open Trait (ofSealed follows_ofSealed)

variable {steps : Nat} {c : Config} {ds ds' : Definitions} {content : String}

/-- A sealed text is read as sealed elements. -/
theorem admits_ofSealed (h : Sealed content.toList) : ofSealed.Admits content :=
  (follows_ofSealed content.toList).admits h

/-- A sealed formula is fixed to a sealed one. -/
theorem sealed_of_fixExpression {text : String}
    (hc : ∀ x ∈ c.fixes.renames.toList, ∀ e ∈ x.2.toList, isScannerSign e = false)
    (hcontent : Sealed content.toList) (hds : ofSealed.OfDefinitions ds)
    (hrun : ((Fixer.ofConfig steps c).fixExpression content).run.run ds = some (.ok text, ds')) :
    Sealed text.toList := by
  obtain ⟨-, hfixed⟩ := Trait.inherits_fixExpression hc (admits_ofSealed hcontent) hds hrun
  obtain ⟨t, ht, rfl⟩ := hfixed text rfl
  exact ht.sealed_textUpTo _ _

/-- What sealed formulas leave behind when they are fixed one after the other. -/
theorem Fixer.Yields.ofSealed {outcomes : List Outcome}
    (h : (Fixer.ofConfig steps c).Yields ds outcomes ds')
    (hsealed : ∀ delimiter content span,
      .math delimiter content span ∈ outcomes.map Outcome.segment → Sealed content.toList)
    (hds : ofSealed.OfDefinitions ds) : ofSealed.OfDefinitions ds' := by
  induction h with
  | nil => exact hds
  | text run _ ih =>
    exact ih (fun _ _ _ hmem => hsealed _ _ _ (List.mem_cons_of_mem _ hmem)) hds
  | fixed delimiter span hfix _ ih =>
    have hcontent := hsealed _ _ _ List.mem_cons_self
    refine ih (fun _ _ _ hmem => hsealed _ _ _ (List.mem_cons_of_mem _ hmem)) ?_
    exact Trait.ofDefinitions_fixExpression (admits_ofSealed hcontent) hds hfix
  | kept delimiter span _ _ ih =>
    exact ih (fun _ _ _ hmem => hsealed _ _ _ (List.mem_cons_of_mem _ hmem)) hds

theorem Definitions.Gathered.ofSealed (h : ds.Gathered) : ofSealed.OfDefinitions ds := by
  induction h with
  | empty => exact List.forall_mem_nil _
  | @fix document steps c ds ds' r _ hrun ih =>
    rw [Fixer.fixText] at hrun
    cases hscan : scan document with
    | error m =>
      rw [hscan] at hrun
      cases hrun
      exact ih
    | ok segments =>
      rw [hscan] at hrun
      have hsealed : ∀ delimiter content span, .math delimiter content span ∈ segments →
          Sealed content.toList := fun _ _ _ hmem => sealed_of_scan hscan hmem
      rcases Fixer.run_fixSegments_cases hrun with ⟨outcomes, rfl, hyields, -⟩ |
        ⟨before, delimiter, content, span, after, ds₁, x, rfl, -, hyields, -, hfix, -⟩
      · exact hyields.ofSealed hsealed ih
      · have hbefore := hyields.ofSealed
          (fun _ _ _ hmem => hsealed _ _ _ (List.mem_append_left _ hmem)) ih
        have hcontent := hsealed _ _ _ (List.mem_append_cons_self ..)
        exact Trait.ofDefinitions_fixExpression (admits_ofSealed hcontent) hbefore hfix

end

end Formulary
