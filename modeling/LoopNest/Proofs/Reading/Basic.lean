import LoopNest.Decimal.Reading
import LoopNest.Text.Lexeme
import LoopNest.Word
import Mathlib

/-!
# How parsers run on text that was written for them

For each way to put parsers together: what it answers where its parts read what they should, and
where they give up. A loop is followed by the relation `Iterates`, which knows no bound: it says what
the steps do, and each step that goes on reads something.

What stands after a lexeme decides where it ends. A name is read in full where no character follows
that could go on with it (`Ends`), and blanks are all read where none follow (`Solid`).
-/

namespace LoopNest.Text.Parser

/-- To decide what holds of the characters of a list, go through the list. -/
theorem forall_mem_of_all {cs : List Char} {P : Char → Prop} [DecidablePred P]
    (h : cs.all (fun c => decide (P c)) = true) : ∀ c ∈ cs, P c :=
  fun c hc => of_decide_eq_true (List.all_eq_true.1 h c hc)

variable {α β : Type}

/-- The parser gives up on the input. -/
def Fails (p : Parser α) (s : List Char) : Prop := ∃ rest, p s = .stop rest

section combinators

variable {p q : Parser α} {f : α → Parser β} {a : α} {s rest : List Char}

theorem bind_ok (h : p s = .ok a rest) : (p >>= f) s = f a rest := by
  show Parser.bind p f s = _
  rw [Parser.bind, h]

theorem bind_stop (h : p s = .stop rest) : (p >>= f) s = .stop rest := by
  show Parser.bind p f s = _
  rw [Parser.bind, h]

theorem Fails.bind (h : Fails p s) : Fails (p >>= f) s := by
  obtain ⟨rest, h⟩ := h
  exact ⟨rest, bind_stop h⟩

theorem Fails.bind_of_ok (h : p s = .ok a rest) (hf : Fails (f a) rest) : Fails (p >>= f) s := by
  obtain ⟨rest', hf⟩ := hf
  exact ⟨rest', (bind_ok h).trans hf⟩

theorem orElse_ok (h : p s = .ok a rest) : p.orElse q s = .ok a rest := by
  rw [orElse, h]

theorem orElse_of_fails (h : Fails p s) : p.orElse q s = q s := by
  obtain ⟨rest, h⟩ := h
  rw [orElse, h]

theorem Fails.orElse (hp : Fails p s) (hq : Fails q s) : Fails (p.orElse q) s := by
  obtain ⟨rest, hq⟩ := hq
  exact ⟨rest, (orElse_of_fails hp).trans hq⟩

theorem optional_ok (h : p s = .ok a rest) : optional p s = .ok (some a) rest := by
  rw [optional, h]

theorem optional_of_fails (h : Fails p s) : optional p s = .ok none s := by
  obtain ⟨rest, h⟩ := h
  rw [optional, h]

end combinators

/-! ### Texts and runs of characters -/

theorem text_append (word : String) (rest : List Char) :
    text word (word.toList ++ rest) = .ok () rest := by
  rw [text, after?_eq_some.2 rfl]

variable {s w : List Char}

/-- To say something of the first character, say it of the one that stands there. -/
theorem forall_head {P : Char → Prop} {c : Char} (h : P c) : ∀ d ∈ (c :: s).head?, P d := by
  rintro _ ⟨⟩
  exact h

section head

variable {word : String} {c : Char} (hw : word.toList.head? = some c) (h : ∀ d ∈ s.head?, d ≠ c)

include hw h

theorem after?_of_head : after? word.toList s = none := by
  refine Option.eq_none_iff_forall_ne_some.2 fun rest hrest => h c ?_ rfl
  rw [after?_eq_some.1 hrest, List.head?_append, hw]
  rfl

theorem text_fails : Fails (text word) s := ⟨s, by rw [text, after?_of_head hw h]⟩

theorem startsWith_eq_false : startsWith word s = .ok false s := by
  rw [startsWith, after?_of_head hw h]
  rfl

end head

variable {good : Char → Bool}

/-- The first character of a text that is not empty. -/
theorem head_append (hne : w ≠ []) (rest : List Char) (hw : ∀ c ∈ w, good c = true) :
    ∀ c ∈ (w ++ rest).head?, good c = true := by
  cases w with
  | nil => exact absurd rfl hne
  | cons d w => exact forall_head (hw d (.head _))

theorem takeWhile_append {rest : List Char} (hw : ∀ c ∈ w, good c = true)
    (hrest : ∀ c ∈ rest.head?, good c = false) : takeWhile good (w ++ rest) = .ok w rest := by
  have hnone : rest.takeWhile good = [] ∧ rest.dropWhile good = rest := by
    cases rest with
    | nil => exact ⟨rfl, rfl⟩
    | cons c cs => simp [hrest c rfl]
  rw [takeWhile, List.takeWhile_append_of_pos hw, List.dropWhile_append_of_pos hw, hnone.1, hnone.2,
    List.append_nil]

theorem takeWhile1_append {rest : List Char} (hne : w ≠ []) (hw : ∀ c ∈ w, good c = true)
    (hrest : ∀ c ∈ rest.head?, good c = false) : takeWhile1 good (w ++ rest) = .ok w rest := by
  have hrun := takeWhile_append hw hrest
  rw [takeWhile, Parsed.ok.injEq] at hrun
  rw [takeWhile1, hrun.1, hrun.2, if_neg (by simpa using hne)]

theorem takeWhile1_fails (h : ∀ c ∈ s.head?, good c = false) : Fails (takeWhile1 good) s := by
  have hnone : s.takeWhile good = [] := by
    cases s with
    | nil => rfl
    | cons c cs => simp [h c rfl]
  exact ⟨s, by rw [takeWhile1, hnone]; rfl⟩

theorem satisfy_fails (h : ∀ c ∈ s.head?, good c = false) : Fails (satisfy good) s := by
  cases s with
  | nil => exact ⟨[], rfl⟩
  | cons c cs => exact ⟨c :: cs, by rw [satisfy, h c rfl]; rfl⟩

/-! ### Loops -/

/-- What repeating `step` from a state comes to. -/
inductive Iterates (step : α → Parser (Option α)) : α → List Char → Parsed α → Prop
  | done {a : α} {s rest : List Char} :
    step a s = .ok none rest → Iterates step a s (.ok a rest)
  | stop {a : α} {s rest : List Char} : step a s = .stop rest → Iterates step a s (.stop rest)
  | more {a b : α} {s rest : List Char} {r : Parsed α} :
    step a s = .ok (some b) rest → rest.length < s.length → Iterates step b rest r →
    Iterates step a s r

theorem iterateUpTo_cons (step : α → Parser (Option α)) (c : Char) (bound : List Char) (a : α)
    (s : List Char) :
    iterateUpTo step (c :: bound) a s =
      match step a s with
      | .ok (some b) rest => iterateUpTo step bound b rest
      | .ok none rest => .ok a rest
      | .stop rest => .stop rest := rfl

/-- The bound is never reached: every step that goes on leaves a shorter input. -/
theorem Iterates.iterate {step : α → Parser (Option α)} {a : α} {r : Parsed α}
    (h : Iterates step a s r) : iterate step a s = r := by
  suffices hbound : ∀ c (bound : List Char), s.length ≤ bound.length →
      iterateUpTo step (c :: bound) a s = r from hbound ' ' s .refl
  induction h with
  | done hstep | stop hstep =>
    intro c bound _
    rw [iterateUpTo_cons, hstep]
  | more hstep hless _ ih =>
    intro c bound hlen
    rw [iterateUpTo_cons, hstep]
    cases bound with
    | nil => exact absurd (Nat.lt_of_lt_of_le hless hlen) (Nat.not_lt_zero _)
    | cons d bound => exact ih d bound (Nat.le_of_lt_succ (Nat.lt_of_lt_of_le hless hlen))

section separated

variable {ι : Type} {p : Parser α} {sep : Parser Unit} {mark rest : List Char}
  {write : ι → List Char} {value : ι → α}

/-- After an item comes the end of the list or the next separator. -/
theorem next_cases (mark rest : List Char) (write : ι → List Char) (items : List ι) :
    items.flatMap (fun i => mark ++ write i) ++ rest = rest ∨
      mark <+: items.flatMap (fun i => mark ++ write i) ++ rest := by
  cases items with
  | nil => exact .inl rfl
  | cons j items =>
    exact .inr ⟨write j ++ (items.flatMap (fun i => mark ++ write i) ++ rest), by simp⟩

/-- The texts with a mark between any two of them. -/
theorem intercalate_cons (mark w : List Char) (ws : List (List Char)) :
    mark.intercalate (w :: ws) = w ++ ws.flatMap (mark ++ ·) := by
  induction ws generalizing w with
  | nil => simp [List.intercalate]
  | cons v ws ih =>
    rw [List.intercalate_cons_cons, ih, List.flatMap_cons]
    simp

theorem length_le_intercalate (mark : List Char) {w : List Char} {ws : List (List Char)}
    (h : w ∈ ws) : w.length ≤ (mark.intercalate ws).length := by
  induction ws with
  | nil => cases h
  | cons u ws ih =>
    cases ws with
    | nil => simp_all [List.intercalate]
    | cons u' ws =>
      rw [List.intercalate_cons_cons, List.length_append, List.length_append]
      obtain rfl | hw := List.mem_cons.1 h
      · omega
      · have := ih hw
        omega

theorem separated_eq_separated1 {a : α} {s r : List Char} (h : p s = .ok a r) :
    separated p sep s = separated1 p sep s := by
  rw [separated, bind_ok (optional_ok h), separated1, bind_ok h]

section items

variable (hmark : mark ≠ []) {items : List ι}
  (hitem : ∀ i ∈ items, ∀ r, r = rest ∨ mark <+: r →
    (do sep; p) (mark ++ (write i ++ r)) = .ok (value i) r)
  (hend : Fails (do sep; p) rest)
include hmark hitem hend

/-- The items after the first, each behind its separator. -/
theorem moreSeparated_append (start : List α) :
    moreSeparated p sep start (items.flatMap (fun i => mark ++ write i) ++ rest) =
      .ok ((items.map value).reverse ++ start) rest := by
  apply Iterates.iterate
  induction items generalizing start with
  | nil =>
    apply Iterates.done
    exact bind_ok (optional_of_fails hend)
  | cons i items ih =>
    obtain ⟨hi, hitems⟩ := List.forall_mem_cons.1 hitem
    have hread := hi _ (next_cases mark rest write items)
    have hinput : (i :: items).flatMap (fun i => mark ++ write i) ++ rest =
        mark ++ (write i ++ (items.flatMap (fun i => mark ++ write i) ++ rest)) := by simp
    rw [hinput]
    refine Iterates.more (bind_ok (optional_ok hread)) ?_ ?_
    · have := List.length_pos_iff.2 hmark
      simp only [List.length_append]
      omega
    · simpa using ih hitems (value i :: start)

/-- A list that is not empty. -/
theorem separated1_append {i : ι}
    (hfirst : ∀ r, r = rest ∨ mark <+: r → p (write i ++ r) = .ok (value i) r) :
    separated1 p sep (mark.intercalate ((i :: items).map write) ++ rest) =
      .ok ((i :: items).map value) rest := by
  rw [List.map_cons, intercalate_cons, List.append_assoc, List.flatMap_map]
  rw [separated1, bind_ok (hfirst _ (next_cases mark rest write items)),
    bind_ok (moreSeparated_append hmark hitem hend _)]
  show Parsed.ok _ _ = _
  simp

/-- A list that may be empty. -/
theorem separated_append
    (hfirst : ∀ i ∈ items, ∀ r, r = rest ∨ mark <+: r → p (write i ++ r) = .ok (value i) r)
    (hnone : Fails p rest) :
    separated p sep (mark.intercalate (items.map write) ++ rest) = .ok (items.map value) rest := by
  cases items with
  | nil =>
    have hinput : mark.intercalate (([] : List ι).map write) ++ rest = rest := by
      simp [List.intercalate]
    rw [hinput, separated, bind_ok (optional_of_fails hnone)]
    rfl
  | cons i items =>
    obtain ⟨hi, -⟩ := List.forall_mem_cons.1 hfirst
    have hread := separated1_append hmark (List.forall_mem_cons.1 hitem).2 hend hi
    rw [← hread, List.map_cons, intercalate_cons, List.append_assoc, List.flatMap_map]
    exact separated_eq_separated1 (hi _ (next_cases mark rest write items))

end items

end separated

end LoopNest.Text.Parser

namespace LoopNest.Text

open Text.Parser

/-! ### Blanks -/

/-- There are no blanks to skip. -/
def Solid (s : List Char) : Prop := skipBlanksFrom false s = s

theorem solid_nil : Solid [] := rfl

variable {c : Char} {s : List Char} {n : String}

theorem solid_cons {cs : List Char} (hblank : isCodeBlank c = false)
    (hslash : c = '/' → cs.head? ≠ some '/') : Solid (c :: cs) := by
  unfold Solid
  rw [skipBlanksFrom.eq_def]
  split <;> simp_all

theorem solid_mark (h : isCodeBlank c = false ∧ c ≠ '/') (cs : List Char) : Solid (c :: cs) :=
  solid_cons h.1 fun hslash => absurd hslash h.2

theorem solid_of_head (h : ∀ c ∈ s.head?, isCodeBlank c = false ∧ c ≠ '/') : Solid s := by
  cases s with
  | nil => exact solid_nil
  | cons c cs => exact solid_mark (h c rfl) cs

theorem blanks_of_solid (h : Solid s) : blanks s = .ok () s := by
  rw [blanks, h]

/-- Blanks before what is no blank are all read. -/
theorem blanks_append {w : List Char} (hw : ∀ c ∈ w, isCodeBlank c = true) (h : Solid s) :
    blanks (w ++ s) = .ok () s := by
  have hskip : skipBlanksFrom false (w ++ s) = s := by
    induction w with
    | nil => exact h
    | cons c w ih =>
      obtain ⟨hc, hw⟩ := List.forall_mem_cons.1 hw
      have hslash : c ≠ '/' := by
        rintro rfl
        exact absurd hc (by decide)
      rw [List.cons_append, skipBlanksFrom.eq_def]
      split <;> simp_all
  rw [blanks, hskip]

theorem blanks_space (h : Solid s) : blanks (' ' :: s) = .ok () s :=
  blanks_append (w := [' ']) (forall_mem_of_all (by decide)) h

/-! ### Names and keywords -/

/-- No character follows that could go on with a name. -/
def Ends (s : List Char) : Prop := ∀ c ∈ s.head?, isIdentRest c = false

theorem ends_nil : Ends [] := by simp [Ends]

theorem ends_cons (h : isIdentRest c = false) (cs : List Char) : Ends (c :: cs) := by
  simpa [Ends] using h

theorem isIdent_iff :
    isIdent n = true ↔ ∃ c cs, n.toList = c :: cs ∧ isIdentStart c = true ∧
      ∀ d ∈ cs, isIdentRest d = true := by
  unfold isIdent
  split
  next h => simp [h]
  next c cs h =>
    rw [h, Bool.and_eq_true, List.all_eq_true]
    constructor
    · exact fun hc => ⟨c, cs, rfl, hc⟩
    · rintro ⟨_, _, heq, hc⟩
      cases heq
      exact hc

section

variable (h : isIdentStart c = true)
include h

theorem isIdentRest_of_isIdentStart : isIdentRest c = true := by
  simp only [isIdentStart, isIdentRest, Char.isAlphanum, Bool.or_eq_true] at h ⊢
  exact h.imp_left .inl

/-- The letters and the underscore, by their numbers. -/
theorem toNat_of_isIdentStart :
    65 ≤ c.toNat ∧ c.toNat ≤ 90 ∨ 97 ≤ c.toNat ∧ c.toNat ≤ 122 ∨ c.toNat = 95 := by
  simp only [isIdentStart, Char.isAlpha, Char.isUpper, Char.isLower, Bool.or_eq_true,
    Bool.and_eq_true, decide_eq_true_iff, beq_iff_eq, ge_iff_le, UInt32.le_iff_toNat_le] at h
  rcases h with (⟨hl, hr⟩ | ⟨hl, hr⟩) | rfl
  · exact .inl ⟨hl, hr⟩
  · exact .inr (.inl ⟨hl, hr⟩)
  · exact .inr (.inr rfl)

theorem isDigit_of_isIdentStart : Decimal.isDigit c = false := by
  have hrange := toNat_of_isIdentStart h
  rw [Decimal.isDigit, Bool.and_eq_false_iff, decide_eq_false_iff_not, decide_eq_false_iff_not,
    Char.le_def, Char.le_def, UInt32.le_iff_toNat_le, UInt32.le_iff_toNat_le]
  show ¬ 48 ≤ c.toNat ∨ ¬ c.toNat ≤ 57
  omega

theorem isBlank_of_isIdentStart : isBlank c = false := by
  have hrange := toNat_of_isIdentStart h
  simp only [isBlank, Bool.or_eq_false_iff, Bool.and_eq_false_iff, decide_eq_false_iff_not,
    beq_eq_false_iff_ne]
  omega

theorem isCodeBlank_of_isIdentStart : isCodeBlank c = false := by
  cases hblank : isCodeBlank c with
  | false => rfl
  | true =>
    have hnot := isBlank_of_isIdentStart h
    rw [isBlank_of_isCodeBlank hblank] at hnot
    cases hnot

/-- A character that starts a name is no mark. -/
theorem ne_of_isIdentStart {d : Char} (hd : isIdentStart d = false) : c ≠ d := by
  rintro rfl
  rw [h] at hd
  cases hd

end

theorem cons_ident (hn : isIdent n = true) (rest : List Char) :
    ∃ c cs, n.toList ++ rest = c :: cs ∧ isIdentStart c = true := by
  obtain ⟨c, cs, hlist, hc, -⟩ := isIdent_iff.1 hn
  exact ⟨c, cs ++ rest, by rw [hlist]; rfl, hc⟩

theorem head_ident (hn : isIdent n = true) (rest : List Char) :
    ∀ c ∈ (n.toList ++ rest).head?, isIdentStart c = true := by
  obtain ⟨c, cs, hlist, hc⟩ := cons_ident hn rest
  rw [hlist]
  exact forall_head hc

theorem solid_ident (hn : isIdent n = true) (rest : List Char) : Solid (n.toList ++ rest) :=
  solid_of_head fun c hc => have hstart := head_ident hn rest c hc
    ⟨isCodeBlank_of_isIdentStart hstart, ne_of_isIdentStart hstart (by decide)⟩

theorem isIdentRest_of_mem (h : isIdent n = true) (hc : c ∈ n.toList) : isIdentRest c = true := by
  obtain ⟨d, ds, hn, hd, hds⟩ := isIdent_iff.1 h
  rw [hn] at hc
  obtain rfl | hc := List.mem_cons.1 hc
  · exact isIdentRest_of_isIdentStart hd
  · exact hds c hc

/-- **A name is read back** where nothing goes on with it. -/
theorem ident_append (hn : isIdent n = true) {rest : List Char} (hrest : Ends rest) :
    ident (n.toList ++ rest) = .ok n rest := by
  obtain ⟨c, cs, hlist, hc, hcs⟩ := isIdent_iff.1 hn
  have hfirst : satisfy isIdentStart (c :: (cs ++ rest)) = .ok c (cs ++ rest) := by
    rw [satisfy, if_pos hc]
  rw [hlist, List.cons_append, ident, bind_ok hfirst, bind_ok (takeWhile_append hcs hrest), ← hlist,
    String.ofList_toList]
  rfl

theorem ident_fails (h : ∀ c ∈ s.head?, isIdentStart c = false) : Fails ident s :=
  (satisfy_fails h).bind

theorem keyword_append (word : String) {rest : List Char} (hrest : Ends rest) :
    keyword word (word.toList ++ rest) = .ok () rest := by
  rw [keyword, after?_eq_some.2 rfl]
  cases rest with
  | nil => rfl
  | cons c cs => simp [hrest c rfl]

theorem keyword_fails {word : String} (h : ∀ rest, s = word.toList ++ rest → ¬ Ends rest) :
    Fails (keyword word) s := by
  rw [Fails, keyword]
  cases hafter : after? word.toList s with
  | none => exact ⟨s, rfl⟩
  | some rest =>
    cases rest with
    | nil => exact absurd ends_nil (h [] (after?_eq_some.1 hafter))
    | cons c cs =>
      cases hc : isIdentRest c with
      | false => exact absurd (ends_cons hc cs) (h _ (after?_eq_some.1 hafter))
      | true => exact ⟨s, by simp [hc]⟩

/-! ### Quoted strings -/

theorem quote_toList (s : String) :
    (quote s).toList = '"' :: (s.toList.flatMap escape ++ ['"']) := by
  simp [quote]

theorem quoted_append (s : String) (rest : List Char) :
    quoted ((quote s).toList ++ rest) = .ok s rest := by
  have hopen : text "\"" ((quote s).toList ++ rest) =
      .ok () (s.toList.flatMap escape ++ '"' :: rest) := by
    rw [quote_toList, List.cons_append, List.append_assoc]
    exact text_append "\"" _
  refine (bind_ok hopen).trans ?_
  rw [quotedFrom_flatMap_escape]
  simp

end LoopNest.Text

namespace LoopNest

/-! ### Items of lists -/

/-- What stands after an item of a list in brackets or parentheses. -/
def EndsItem (s : List Char) : Prop := ∃ c cs, s = c :: cs ∧ c ∈ [')', ']', ',']

namespace EndsItem

open Text Text.Parser

variable {s rest : List Char}

theorem head (h : EndsItem s) {P : Char → Prop} (hP : ∀ c ∈ [')', ']', ','], P c) :
    ∀ c ∈ s.head?, P c := by
  obtain ⟨c, cs, rfl, hc⟩ := h
  exact forall_head (hP c hc)

theorem ends (h : EndsItem s) : Ends s := h.head (forall_mem_of_all (by decide))

theorem solid (h : EndsItem s) : Solid s := solid_of_head (h.head (forall_mem_of_all (by decide)))

theorem of_mark (hrest : EndsItem rest) (h : s = rest ∨ ", ".toList <+: s) : EndsItem s := by
  rcases h with rfl | ⟨s, rfl⟩
  · exact hrest
  · exact ⟨',', ' ' :: s, rfl, by decide⟩

end EndsItem

/-! ### Digits -/

namespace Decimal

theorem isDigit_of_mem_toDigits {n : Nat} {c : Char} (h : c ∈ Nat.toDigits 10 n) :
    isDigit c = true := by
  have hdigit := Nat.isDigit_of_mem_toDigits (by decide) (by decide) h
  rw [Char.isDigit, Bool.and_eq_true, decide_eq_true_iff, decide_eq_true_iff] at hdigit
  rw [isDigit, Bool.and_eq_true, decide_eq_true_iff, decide_eq_true_iff]
  exact hdigit

theorem isCodeBlank_of_isDigit {c : Char} (h : isDigit c = true) :
    Text.isCodeBlank c = false ∧ c ≠ '/' := by
  rw [isDigit, Bool.and_eq_true, decide_eq_true_iff, decide_eq_true_iff, Char.le_def, Char.le_def,
    UInt32.le_iff_toNat_le, UInt32.le_iff_toNat_le] at h
  have hrange : 48 ≤ c.toNat ∧ c.toNat ≤ 57 := h
  constructor
  · simp only [Text.isCodeBlank, Bool.or_eq_false_iff, beq_eq_false_iff_ne]
    refine ⟨⟨⟨⟨?_, ?_⟩, ?_⟩, ?_⟩, ?_⟩ <;> rintro rfl <;> exact absurd hrange (by decide)
  · rintro rfl
    exact absurd hrange (by decide)

theorem ofDigits_toDigits (n : Nat) : ofDigits (Nat.toDigits 10 n) = n := by
  have h := Nat.ofDigitChars_ten_toDigits (n := n)
  rw [Nat.ofDigitChars_eq_foldl] at h
  exact h

end Decimal

namespace Word

/-- A word is written as a sign, if it is negative, and the digits of its magnitude. -/
theorem text_toList (w : Word) :
    w.text.toList = (if w.toInt < 0 then ['-'] else []) ++ Nat.toDigits 10 w.toInt.natAbs := by
  unfold text
  cases w.toInt with
  | ofNat n =>
    rw [if_neg (by simp)]
    simp [toString, Int.repr]
  | negSucc n =>
    rw [if_pos (Int.negSucc_lt_zero n)]
    simp [toString, Int.repr]

end Word

end LoopNest
