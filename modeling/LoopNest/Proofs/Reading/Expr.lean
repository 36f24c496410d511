import LoopNest.Proofs.Reading.Operators
import LoopNest.Proofs.Scoping

/-!
# Expressions are read back

`Expr.asRead` is what the text of an expression is read as, before names are resolved. It differs
from the expression where the text does: a buffer without indices is written as a bare name, the
negation of a literal as a negative literal, and what is no finite number as a name.

`expr_append`: the text is read as `asRead` wherever something follows that ends an expression, if
all names are identifiers and the least word is not among the literals: its magnitude is no word.
-/

namespace LoopNest

open Text Text.Parser Decimal

/-! ## Signs -/

theorem length_skipBlanksFrom (b : Bool) (s : List Char) :
    (skipBlanksFrom b s).length ≤ s.length := by
  fun_induction skipBlanksFrom b s with
  | case1 => exact Nat.le_refl _
  | case2 c cs ih => exact Nat.le_succ_of_le ih
  | case3 cs ih => exact Nat.le_succ_of_le (Nat.le_succ_of_le ih)
  | case4 c cs hslash hblank ih => exact Nat.le_succ_of_le ih
  | case5 c cs hslash hblank => exact Nat.le_refl _

variable {inner : Parser Expr}

theorem unaryUpTo_minus (c : Char) (bound s : List Char) :
    unaryUpTo inner (c :: bound) ('-' :: s) =
      (if s.head?.any isDigit then (do return negateLiteral (← number) : Parser Expr)
        else (do blanks; return .neg (← unaryUpTo inner bound) : Parser Expr)) s := rfl

variable {s rest : List Char}

theorem unaryUpTo_of_fails (c : Char) (bound : List Char) (h : Fails (text "-") s) :
    unaryUpTo inner (c :: bound) s = atom inner s :=
  bind_ok (optional_of_fails h)

/-- The bound on the signs is never reached. -/
theorem unaryUpTo_eq_unary {bound : List Char} (h : s.length < bound.length) :
    unaryUpTo inner bound s = unary inner s := by
  suffices hall : ∀ bound' : List Char, s.length < bound'.length →
      unaryUpTo inner bound s = unaryUpTo inner bound' s from hall (' ' :: s) (by simp)
  induction bound generalizing s with
  | nil => cases h
  | cons c bound ih =>
    intro bound' h'
    cases bound' with
    | nil => cases h'
    | cons c' bound' =>
      by_cases hsign : s.head? = some '-'
      · obtain ⟨s, rfl⟩ := List.head?_eq_some_iff.1 hsign
        have hlength := length_skipBlanksFrom false s
        rw [List.length_cons, List.length_cons] at h h'
        rw [unaryUpTo_minus, unaryUpTo_minus]
        split
        next => rfl
        next =>
          have hskip : blanks s = .ok () (skipBlanksFrom false s) := rfl
          rw [bind_ok hskip, bind_ok hskip]
          show Parser.bind _ _ _ = Parser.bind _ _ _
          rw [Parser.bind, Parser.bind, ih (by omega) bound' (by omega)]
      · have hnone : Fails (text "-") s :=
          text_fails (c := '-') rfl fun d hd heq => hsign (heq ▸ hd)
        rw [unaryUpTo_of_fails c bound hnone, unaryUpTo_of_fails c' bound' hnone]

/-- A sign before what is no digit. -/
theorem unary_minus (hsolid : Solid s) (hdigit : ∀ c ∈ s.head?, isDigit c = false)
    {v : Expr} (h : unary inner s = .ok v rest) : unary inner ('-' :: s) = .ok (.neg v) rest := by
  have hnone : ¬ s.head?.any isDigit = true := by
    rw [Option.any_eq_true]
    rintro ⟨c, hc, hd⟩
    rw [hdigit c hc] at hd
    cases hd
  show unaryUpTo inner (' ' :: '-' :: s) ('-' :: s) = _
  rw [unaryUpTo_minus, if_neg hnone, bind_ok (blanks_of_solid hsolid)]
  have hread : unaryUpTo inner ('-' :: s) s = .ok v rest :=
    (unaryUpTo_eq_unary (by simp)).trans h
  exact bind_ok hread

/-- A sign before the digits of a literal. -/
theorem unary_minus_number (hdigit : ∃ c cs, s = c :: cs ∧ isDigit c = true) {v : Expr}
    (h : number s = .ok v rest) : unary inner ('-' :: s) = .ok (negateLiteral v) rest := by
  have hsome : s.head?.any isDigit = true := by
    obtain ⟨c, cs, rfl, hc⟩ := hdigit
    exact hc
  show unaryUpTo inner (' ' :: '-' :: s) ('-' :: s) = _
  rw [unaryUpTo_minus, if_pos hsome]
  exact bind_ok h

/-! ## Indices in brackets -/

section indices

variable {α ι : Type} {p : Parser α} {write : ι → String} {value : ι → α}

variable {s rest : List Char}

theorem EndsItem.follows (h : EndsItem s) (k : Nat) : Follows k s := by
  obtain ⟨c, cs, rfl, hc⟩ := h
  have hmarks : ∀ c ∈ [')', ']', ','], c ∈ [')', ']', ',', ':', ';'] :=
    forall_mem_of_all (by decide)
  exact .mark (hmarks c hc)

theorem spaced_ok {s' : List Char} {a : α} (hs : blanks s = .ok () s') (h : p s' = .ok a rest)
    (hrest : Solid rest) : spaced p s = .ok a rest :=
  (bind_ok hs).trans ((bind_ok h).trans (bind_ok (blanks_of_solid hrest)))

variable (items : List ι)
  (hitem : ∀ i ∈ items, ∀ r, EndsItem r → p ((write i).toList ++ r) = .ok (value i) r)
  (hsolid : ∀ i ∈ items, ∀ r, Solid ((write i).toList ++ r))

include hitem hsolid

/-- The first item of a list. -/
theorem spaced_item {i : ι} (hi : i ∈ items) {r : List Char} (hr : EndsItem r) :
    spaced p ((write i).toList ++ r) = .ok (value i) r :=
  spaced_ok (blanks_of_solid (hsolid i hi r)) (hitem i hi r hr) hr.solid

/-- An item after a comma. -/
theorem comma_item {i : ι} (hi : i ∈ items) {r : List Char} (hr : EndsItem r) :
    (do text ","; spaced p : Parser α) (", ".toList ++ ((write i).toList ++ r)) =
      .ok (value i) r := by
  have hcomma : text "," (", ".toList ++ ((write i).toList ++ r)) =
      .ok () (' ' :: ((write i).toList ++ r)) := rfl
  exact (bind_ok hcomma).trans (spaced_ok (blanks_space (hsolid i hi r)) (hitem i hi r hr) hr.solid)

omit hitem hsolid in
theorem toList_commas : (commas (items.map write)).toList =
    ", ".toList.intercalate (items.map fun i => (write i).toList) := by
  simp [commas, String.toList_intercalate, Function.comp_def]

/-- Items with commas between them. -/
theorem commaList_commas (hne : items ≠ []) (hrest : EndsItem rest) (hend : Fails (text ",") rest) :
    commaList p ((commas (items.map write)).toList ++ rest) = .ok (items.map value) rest := by
  obtain ⟨i, items, rfl⟩ := List.exists_cons_of_ne_nil hne
  rw [toList_commas]
  exact separated1_append (by decide)
    (fun j hj r hr => comma_item _ hitem hsolid (List.mem_cons_of_mem i hj) (hrest.of_mark hr))
    hend.bind fun r hr => spaced_item _ hitem hsolid (.head _) (hrest.of_mark hr)

/-- The same where there may be no item. -/
theorem separated_commas (hrest : EndsItem rest) (hnone : Fails (spaced p) rest)
    (hend : Fails (text ",") rest) :
    separated (spaced p) (text ",") ((commas (items.map write)).toList ++ rest) =
      .ok (items.map value) rest := by
  rw [toList_commas]
  exact separated_append (by decide)
    (fun i hi r hr => comma_item _ hitem hsolid hi (hrest.of_mark hr)) hend.bind
    (fun i hi r hr => spaced_item _ hitem hsolid hi (hrest.of_mark hr)) hnone

omit hitem hsolid in
theorem toList_brackets_cons (i : ι) (items : List ι) (rest : List Char) :
    (brackets ((i :: items).map write)).toList ++ rest =
      '[' :: ((commas ((i :: items).map write)).toList ++ ']' :: rest) := by
  simp [brackets]

/-- Items in brackets are read back, and none where no bracket follows. -/
theorem indices_brackets (hrest : Fails (do blanks; text "[" : Parser Unit) rest) :
    indices p ((brackets (items.map write)).toList ++ rest) = .ok (items.map value) rest := by
  cases items with
  | nil => exact bind_ok (optional_of_fails hrest)
  | cons i items =>
    have hopen : (do blanks; text "[" : Parser Unit)
        ('[' :: ((commas ((i :: items).map write)).toList ++ ']' :: rest)) =
          .ok () ((commas ((i :: items).map write)).toList ++ ']' :: rest) := rfl
    have hclose : Fails (text ",") (']' :: rest) := ⟨']' :: rest, rfl⟩
    have hlist := commaList_commas _ hitem hsolid (List.cons_ne_nil i items)
      ⟨']', rest, rfl, by decide⟩ hclose
    rw [toList_brackets_cons]
    refine (bind_ok (optional_ok hopen)).trans ?_
    exact (bind_ok hlist).trans (bind_ok (text_append "]" rest))

end indices

/-! ## Expressions as they are read -/

namespace Expr

/-- The expression and all its sub-expressions. -/
def parts (e : Expr) : List Expr := e.collect fun a => [a]

/-- Names are identifiers, and the magnitude of an integer is a word. -/
def isSpelled : Expr → Bool
  | var v => isIdent v
  | read b _ => isIdent b
  | int n => n ≠ Int64.minValue
  | _ => true

/-- Everything in the expression can be spelled. -/
def Spelled (e : Expr) : Prop := ∀ a ∈ e.parts, a.isSpelled = true

/-- A literal that is written without a sign. -/
def isUnsigned : Expr → Bool
  | int n => 0 ≤ n
  | float x => x.isFinite && !isNegative x
  | _ => false

mutual

/-- What the text of the expression is read as, before names are resolved. -/
def asRead : Expr → Expr
  | var v => var v
  | int n => int n
  | float x =>
    if x.isFinite then float (reread x)
    else if x.isNaN then var "NaN"
    else if isNegative x then neg (var "inf") else var "inf"
  | read b idx => if idx.isEmpty then var b else read b (asReadAll idx)
  | binary op l r => binary op l.asRead r.asRead
  | neg e => if e.isUnsigned then negateLiteral e.asRead else neg e.asRead

def asReadAll : List Expr → List Expr
  | [] => []
  | e :: es => e.asRead :: asReadAll es

end

theorem asReadAll_eq_map (es : List Expr) : asReadAll es = es.map (·.asRead) := by
  induction es with
  | nil => rfl
  | cons e es ih => rw [asReadAll, ih, List.map_cons]

theorem texts_eq_map (es : List Expr) : texts es = es.map (·.text) := by
  induction es with
  | nil => rfl
  | cons e es ih => rw [texts, ih, List.map_cons]

theorem parts_read (b : String) (idx : List Expr) :
    (read b idx).parts = read b idx :: idx.flatMap parts := by
  rw [parts, collect, collectAll_eq_flatMap]
  rfl

theorem parts_binary (op : Op) (l r : Expr) :
    (binary op l r).parts = binary op l r :: (l.parts ++ r.parts) := rfl

theorem parts_neg (e : Expr) : (neg e).parts = neg e :: e.parts := rfl

theorem spelled_read {b : String} {idx : List Expr} :
    (read b idx).Spelled ↔ isIdent b = true ∧ ∀ e ∈ idx, e.Spelled := by
  rw [Spelled, parts_read, List.forall_mem_cons]
  simp only [isSpelled, List.mem_flatMap, Spelled]
  grind

theorem spelled_binary {op : Op} {l r : Expr} :
    (binary op l r).Spelled ↔ l.Spelled ∧ r.Spelled := by
  rw [Spelled, parts_binary, List.forall_mem_cons, List.forall_mem_append]
  exact and_iff_right rfl

theorem spelled_neg {e : Expr} : (neg e).Spelled ↔ e.Spelled := by
  rw [Spelled, parts_neg, List.forall_mem_cons]
  exact and_iff_right rfl

theorem spelled_var {v : String} : (var v).Spelled ↔ isIdent v = true := by
  simp [Spelled, parts, collect, isSpelled]

theorem spelled_int {n : Word} : (int n).Spelled ↔ n ≠ Int64.minValue := by
  simp [Spelled, parts, collect, isSpelled]

theorem one_le_precedence (e : Expr) : 1 ≤ e.precedence := by
  cases e with
  | binary op l r => exact op.precedence_mem.1
  | int n | float x =>
    rw [precedence]
    split <;> decide
  | _ => simp [precedence]

/-! ### The first character -/

/-- The characters that an expression can start with. -/
def Opens (c : Char) : Prop := isIdentStart c = true ∨ isDigit c = true ∨ c = '-' ∨ c = '('

theorem Opens.solid {c : Char} (h : Opens c) (cs : List Char) : Solid (c :: cs) := by
  rcases h with h | h | rfl | rfl
  · exact solid_mark ⟨isCodeBlank_of_isIdentStart h, ne_of_isIdentStart h (by decide)⟩ cs
  · exact solid_mark (isCodeBlank_of_isDigit h) cs
  · rfl
  · rfl

theorem toList_parenthesize (needed : Bool) (t : String) : (parenthesize needed t).toList =
    if needed then '(' :: (t.toList ++ [')']) else t.toList := by
  unfold parenthesize
  split <;> simp

theorem opens_ident {n : String} (h : isIdent n = true) (rest : List Char) :
    ∃ c cs, n.toList ++ rest = c :: cs ∧ Opens c := by
  obtain ⟨c, cs, hn, hc⟩ := cons_ident h rest
  exact ⟨c, cs, hn, .inl hc⟩

theorem head_toDigits (n : Nat) : ∃ c cs, Nat.toDigits 10 n = c :: cs ∧ isDigit c = true := by
  obtain ⟨c, cs, hdigits⟩ := List.exists_cons_of_ne_nil (Nat.toDigits_ne_nil (n := n) (b := 10))
  refine ⟨c, cs, hdigits, isDigit_of_mem_toDigits (n := n) ?_⟩
  rw [hdigits]
  exact .head _

theorem opens_literal (x : Float) : ∃ c cs, (Decimal.literal x).toList = c :: cs ∧ Opens c := by
  have hsign : ∀ t, (∃ c cs, t = c :: cs ∧ Opens c) →
      ∃ c cs, signText x ++ t = c :: cs ∧ Opens c := by
    intro t ht
    unfold signText
    split
    · exact ⟨'-', t, rfl, .inr (.inr (.inl rfl))⟩
    · exact ht
  cases hfinite : x.isFinite with
  | true =>
    obtain ⟨t, v, htext, ⟨c, cs, ht, hc⟩, -⟩ := number_literal hfinite
    rw [htext]
    exact hsign t ⟨c, cs, ht, .inr (.inl hc)⟩
  | false =>
    rw [literal_of_not_isFinite hfinite]
    split
    · exact ⟨'N', ['a', 'N'], rfl, .inl (by decide)⟩
    · exact hsign _ ⟨'i', ['n', 'f'], rfl, .inl (by decide)⟩

theorem opens_text {e : Expr} (h : e.Spelled) : ∃ c cs, e.text.toList = c :: cs ∧ Opens c := by
  induction e with
  | var v =>
    obtain ⟨c, cs, hv, hc⟩ := opens_ident (spelled_var.1 h) []
    exact ⟨c, cs, (List.append_nil _).symm.trans hv, hc⟩
  | int n =>
    rw [text, Word.text_toList]
    split
    · exact ⟨'-', _, rfl, .inr (.inr (.inl rfl))⟩
    · obtain ⟨c, cs, hdigits, hc⟩ := head_toDigits n.toInt.natAbs
      exact ⟨c, cs, hdigits, .inr (.inl hc)⟩
  | float x => exact opens_literal x
  | read b idx _ =>
    rw [text, String.toList_append]
    exact opens_ident (spelled_read.1 h).1 _
  | binary op l r ihl _ =>
    obtain ⟨c, cs, hl, hc⟩ := ihl (spelled_binary.1 h).1
    simp only [text, String.toList_append, toList_parenthesize, List.append_assoc]
    split
    · exact ⟨'(', _, rfl, .inr (.inr (.inr rfl))⟩
    · exact ⟨c, _, by rw [hl]; rfl, hc⟩
  | neg e _ =>
    rw [text, String.toList_append]
    exact ⟨'-', _, rfl, .inr (.inr (.inl rfl))⟩

theorem solid_text {e : Expr} (h : e.Spelled) (rest : List Char) :
    Solid (e.text.toList ++ rest) := by
  obtain ⟨c, cs, htext, hc⟩ := opens_text h
  rw [htext]
  exact hc.solid _

end Expr

/-! ## Atoms -/

section atoms

variable {t rest : List Char} {v : Expr}

theorem Follows.bracket_fails {k : Nat} (h : Follows k rest) :
    Fails (do blanks; text "[" : Parser Unit) rest := by
  obtain ⟨s, hblanks, -, hs⟩ := h.behind_blanks
  exact Fails.bind_of_ok hblanks (text_fails (c := '[') rfl fun c hc => (hs c hc).1)

theorem reads_number (h : ∀ rest, Follows 6 rest → number (t ++ rest) = .ok v rest) :
    Reads inner 6 t v :=
  fun rest hrest => orElse_ok (h rest hrest)

theorem enclosed_ok {α : Type} {p : Parser α} {s : List Char} {a : α} (hsolid : Solid s)
    (h : p s = .ok a (')' :: rest)) : enclosed "(" p ")" ('(' :: s) = .ok a rest := by
  have hclose : Solid (')' :: rest) := rfl
  refine (bind_ok (text_append "(" s)).trans ((bind_ok (blanks_of_solid hsolid)).trans ?_)
  refine (bind_ok h).trans ((bind_ok (blanks_of_solid hclose)).trans ?_)
  exact bind_ok (text_append ")" rest)

theorem reads_paren (hsolid : ∀ rest, Solid (t ++ rest))
    (h : ∀ rest, inner (t ++ ')' :: rest) = .ok v (')' :: rest)) :
    Reads inner 6 ('(' :: (t ++ [')'])) v := by
  intro rest _
  have hinput : '(' :: (t ++ [')']) ++ rest = '(' :: (t ++ ')' :: rest) := by simp
  rw [hinput]
  show atom inner _ = _
  exact (orElse_of_fails (number_fails (forall_head (by decide)))).trans
    (orElse_ok (enclosed_ok (hsolid _) (h rest)))

/-- A name is no number and no parenthesis. -/
theorem atom_eq_access {n : String} (hn : isIdent n = true) (s : List Char) :
    atom inner (n.toList ++ s) = access inner (n.toList ++ s) := by
  have hhead := head_ident hn s
  have hnumber := number_fails fun c hc => isDigit_of_isIdentStart (hhead c hc)
  have henclosed : Fails (enclosed "(" inner ")") (n.toList ++ s) :=
    enclosed_fails fun c hc => ne_of_isIdentStart (hhead c hc) (by decide)
  exact (orElse_of_fails hnumber).trans (orElse_of_fails henclosed)

/-- A name with indices, or alone. -/
theorem reads_access {b : String} (hb : isIdent b = true) (idx : List Expr)
    (hidx : ∀ e ∈ idx, ∀ r, EndsItem r → inner (e.text.toList ++ r) = .ok e.asRead r)
    (hsolid : ∀ e ∈ idx, ∀ r, Solid (e.text.toList ++ r)) :
    Reads inner 6 (b ++ brackets (idx.map (·.text))).toList
      (if idx.isEmpty then .var b else .read b (idx.map (·.asRead))) := by
  intro rest hrest
  have hends : Ends ((brackets (idx.map (·.text))).toList ++ rest) := by
    cases idx with
    | nil => exact hrest.ends
    | cons e idx =>
      rw [toList_brackets_cons]
      exact ends_cons (by decide) _
  have hindices := indices_brackets idx hidx hsolid hrest.bracket_fails
  rw [String.toList_append, List.append_assoc]
  show atom inner _ = _
  rw [atom_eq_access hb, access, bind_ok (ident_append hb hends), bind_ok hindices]
  cases idx with
  | nil | cons e idx => rfl

theorem reads_name {n : String} (hn : isIdent n = true) : Reads inner 6 n.toList (.var n) := by
  have hread : Reads inner 6 (n ++ brackets []).toList (.var n) :=
    reads_access hn [] (by simp) (by simp)
  simpa [brackets] using hread

theorem reads_minus (hsolid : ∀ rest, Solid (t ++ rest))
    (hdigit : ∃ c cs, t = c :: cs ∧ isDigit c = false) (h : Reads inner 5 t v) :
    Reads inner 5 ('-' :: t) (.neg v) := by
  intro rest hrest
  obtain ⟨c, cs, rfl, hc⟩ := hdigit
  exact unary_minus (hsolid rest) (forall_head hc) (h rest hrest)

theorem reads_minus_number (hdigit : ∃ c cs, t = c :: cs ∧ isDigit c = true)
    (h : ∀ rest, Follows 5 rest → number (t ++ rest) = .ok v rest) :
    Reads inner 5 ('-' :: t) (negateLiteral v) := by
  intro rest hrest
  obtain ⟨c, cs, rfl, hc⟩ := hdigit
  exact unary_minus_number ⟨c, cs ++ rest, rfl, hc⟩ (h rest hrest)

end atoms

/-! ## Expressions -/

namespace Expr

/-- The text of the expression is read at its strength, and the loop of that strength passes
through it. -/
structure Shown (inner : Parser Expr) (e : Expr) : Prop where
  reads : Reads inner e.precedence e.text.toList e.asRead
  chains : GroupsLeft e.precedence → Chains inner e.precedence e.text.toList e.asRead

variable {e : Expr} {k : Nat}

theorem shown_of_reads (hk : 5 ≤ k) (hprec : e.precedence = k)
    (h : Reads inner k e.text.toList e.asRead) : Shown inner e where
  reads := by rwa [hprec]
  chains hleft := by
    have hle := hleft.le
    omega

theorem toInt_neg_of_ne {n : Word} (hn : n ≠ Int64.minValue) : (-n).toInt = -n.toInt := by
  have hne : n.toInt ≠ -9223372036854775808 := fun heq =>
    hn (Int64.toInt_inj.1 (heq.trans Int64.toInt_minValue.symm))
  have hrange := Word.toInt_mem n
  rw [Int64.toInt_neg]
  exact Int.bmod_eq_of_le (by omega) (by omega)

/-- A literal without a sign is a number, read as it stands. -/
theorem number_unsigned (h : e.isUnsigned = true) : e.precedence = 6 ∧
    (∃ c cs, e.text.toList = c :: cs ∧ isDigit c = true) ∧
    ∀ k rest, Follows k rest → number (e.text.toList ++ rest) = .ok e.asRead rest := by
  cases e with
  | int n =>
    have hle : 0 ≤ n.toInt := by simpa [isUnsigned, Int64.le_iff_toInt_le] using h
    have hneg : ¬ n < 0 := by simpa [Int64.lt_iff_toInt_lt] using hle
    have htext : (int n).text.toList = Nat.toDigits 10 n.toInt.natAbs := by
      rw [text, Word.text_toList, if_neg (by omega), List.nil_append]
    rw [htext]
    exact ⟨by simp [precedence, hneg], head_toDigits _, fun k rest hrest =>
      number_toDigits (by omega) hrest.ends hrest.head_ne_point⟩
  | float x =>
    obtain ⟨hfinite, hpos⟩ : x.isFinite = true ∧ isNegative x = false := by
      simpa [isUnsigned] using h
    obtain ⟨t, v, htext, hhead, hnumber, hreread⟩ := number_literal hfinite
    rw [signText, hpos] at htext
    rw [hpos] at hreread
    refine ⟨by simp [precedence, hpos], htext ▸ hhead, fun k rest hrest => ?_⟩
    have hvalue : (float x).asRead = float v := by simp [asRead, hfinite, hreread]
    rw [text, htext, hvalue]
    exact hnumber rest hrest.ends
  | _ => cases h

theorem shown_unsigned (h : e.isUnsigned = true) : Shown inner e :=
  shown_of_reads (by decide) (number_unsigned h).1 (reads_number ((number_unsigned h).2.2 6))

theorem shown_int {n : Word} (hn : n ≠ Int64.minValue) : Shown inner (int n) := by
  cases hsign : (int n).isUnsigned with
  | true => exact shown_unsigned hsign
  | false =>
    have hlt : n.toInt < 0 := by simpa [isUnsigned, Int64.le_iff_toInt_le] using hsign
    have hneg : n < 0 := by simpa [Int64.lt_iff_toInt_lt] using hlt
    have hvalue : (-n).toInt = (n.toInt.natAbs : Nat) := by
      rw [toInt_neg_of_ne hn]
      omega
    have hread : Reads inner 5 ('-' :: Nat.toDigits 10 n.toInt.natAbs)
        (negateLiteral (int (-n))) :=
      reads_minus_number (head_toDigits _) fun rest hrest =>
        number_toDigits hvalue hrest.ends hrest.head_ne_point
    refine shown_of_reads (k := 5) (by decide) (by simp [precedence, hneg]) ?_
    rw [text, Word.text_toList, if_pos hlt]
    simpa [negateLiteral, asRead] using hread

theorem shown_float (x : Float) : Shown inner (float x) := by
  have hprec : (float x).precedence = if isNegative x then 5 else 6 := rfl
  cases hfinite : x.isFinite with
  | true =>
    cases hneg : isNegative x with
    | false => exact shown_unsigned (by simp [isUnsigned, hfinite, hneg])
    | true =>
      obtain ⟨t, v, htext, hhead, hnumber, hreread⟩ := number_literal hfinite
      have hread : Reads inner 5 ('-' :: t) (negateLiteral (float v)) :=
        reads_minus_number hhead fun rest hrest => hnumber rest hrest.ends
      rw [hneg, if_pos rfl] at hreread
      rw [signText, hneg, if_pos rfl] at htext
      refine shown_of_reads (k := 5) (by decide) (by rw [hprec, hneg, if_pos rfl]) ?_
      rw [text, htext]
      simpa [negateLiteral, asRead, hfinite, hreread] using hread
  | false =>
    have htext := literal_of_not_isFinite hfinite
    have hle : (float x).precedence ≤ 6 ∧ 5 ≤ (float x).precedence := by
      rw [hprec]
      split <;> decide
    refine shown_of_reads hle.2 rfl ?_
    rw [text, htext, asRead, hfinite]
    cases hnan : x.isNaN with
    | true =>
      have hread : Reads inner 6 "NaN".toList (var "NaN") := reads_name (by decide)
      exact hread.weaken (one_le_precedence _) hle.1
    | false =>
      have hinf : Reads inner 6 "inf".toList (var "inf") := reads_name (by decide)
      cases hneg : isNegative x with
      | true =>
        have hread : Reads inner 5 ('-' :: "inf".toList) (neg (var "inf")) :=
          reads_minus (fun rest => rfl) ⟨'i', ['n', 'f'], rfl, by decide⟩
            (hinf.weaken (by decide) (by decide))
        rw [hprec, signText, hneg]
        exact hread
      | false =>
        rw [hprec, signText, hneg]
        exact hinf

/-- The first character of a factor that is no literal without a sign. -/
theorem head_of_not_unsigned (hspelled : e.Spelled) (hprec : 5 ≤ e.precedence)
    (h : e.isUnsigned = false) : ∃ c cs, e.text.toList = c :: cs ∧ isDigit c = false := by
  have hident : ∀ n : String, isIdent n = true → ∀ t,
      ∃ c cs, n.toList ++ t = c :: cs ∧ isDigit c = false := by
    intro n hn t
    obtain ⟨c, cs, hlist, hc⟩ := cons_ident hn t
    exact ⟨c, cs, hlist, isDigit_of_isIdentStart hc⟩
  cases e with
  | var v =>
    have hv := hident v (spelled_var.1 hspelled) []
    rwa [List.append_nil] at hv
  | read b idx =>
    rw [text, String.toList_append]
    exact hident b (spelled_read.1 hspelled).1 _
  | int n =>
    have hlt : n.toInt < 0 := by simpa [isUnsigned, Int64.le_iff_toInt_le] using h
    rw [text, Word.text_toList, if_pos hlt]
    exact ⟨'-', _, rfl, by decide⟩
  | float x =>
    rw [text]
    cases hfinite : x.isFinite with
    | true =>
      have hneg : isNegative x = true := by simpa [isUnsigned, hfinite] using h
      obtain ⟨t, v, htext, -⟩ := number_literal hfinite
      rw [htext, signText, hneg, if_pos rfl]
      exact ⟨'-', t, rfl, by decide⟩
    | false =>
      rw [literal_of_not_isFinite hfinite, signText]
      split
      · exact ⟨'N', _, rfl, by decide⟩
      · split
        · exact ⟨'-', _, rfl, by decide⟩
        · exact ⟨'i', _, rfl, by decide⟩
  | binary op l r =>
    have hle := op.precedence_mem.2
    exact absurd hprec (by simp only [precedence]; omega)
  | neg e =>
    rw [text, String.toList_append]
    exact ⟨'-', _, rfl, by decide⟩

/-- The text of an operand, in parentheses if it binds less than `k`. -/
def operand (k : Nat) (e : Expr) : List Char := (parenthesize (e.precedence < k) e.text).toList

theorem text_binary (op : Op) (l r : Expr) : (binary op l r).text.toList =
    l.operand (leftMin op) ++
      ' ' :: (op.symbol.toList ++ ' ' :: r.operand (op.precedence + 1)) := by
  simp [text, operand]

theorem text_neg (e : Expr) : (neg e).text.toList = '-' :: e.operand 5 := by
  simp [text, operand]

theorem operand_of_lt (h : e.precedence < k) : e.operand k = '(' :: (e.text.toList ++ [')']) := by
  simp [operand, toList_parenthesize, h]

theorem operand_of_le (h : k ≤ e.precedence) : e.operand k = e.text.toList := by
  simp [operand, toList_parenthesize, Nat.not_lt.2 h]

/-- The parser reads the text of the expression where it ends. -/
def ReadBy (inner : Parser Expr) (e : Expr) : Prop :=
  ∀ rest, Follows 1 rest → inner (e.text.toList ++ rest) = .ok e.asRead rest

section operands

variable {e : Expr} {k : Nat} (hspelled : e.Spelled) (h : Shown inner e)
  (hinner : e.precedence < k → ReadBy inner e)

include hspelled

theorem solid_operand (rest : List Char) : Solid (e.operand k ++ rest) := by
  rcases Nat.lt_or_ge e.precedence k with hlt | hge
  · rw [operand_of_lt hlt]
    rfl
  · rw [operand_of_le hge]
    exact solid_text hspelled rest

theorem ReadBy.paren (hread : ReadBy inner e) :
    Reads inner 6 ('(' :: (e.text.toList ++ [')'])) e.asRead :=
  reads_paren (solid_text hspelled) fun rest => hread _ (.mark (by decide))

include h hinner

theorem reads_operand (hk : 1 ≤ k) (hk' : k ≤ 6) : Reads inner k (e.operand k) e.asRead := by
  rcases Nat.lt_or_ge e.precedence k with hlt | hge
  · rw [operand_of_lt hlt]
    exact ((hinner hlt).paren hspelled).weaken hk hk'
  · rw [operand_of_le hge]
    exact h.reads.weaken hk hge

theorem chains_operand (hk : GroupsLeft k) : Chains inner k (e.operand k) e.asRead := by
  have hle := hk.le
  rcases Nat.lt_trichotomy e.precedence k with hlt | heq | hgt
  · rw [operand_of_lt hlt]
    exact (((hinner hlt).paren hspelled).weaken (by omega) (by omega)).chains
  · rw [operand_of_le (Nat.le_of_eq heq.symm)]
    exact heq ▸ h.chains (heq ▸ hk)
  · rw [operand_of_le (Nat.le_of_lt hgt)]
    exact (h.reads.weaken (by omega) hgt).chains

end operands

theorem shown_neg (hspelled : e.Spelled) (h : Shown inner e)
    (hinner : e.precedence < 5 → ReadBy inner e) : Shown inner (neg e) := by
  refine shown_of_reads (k := 5) (by decide) rfl ?_
  rw [text_neg, asRead]
  cases hsign : e.isUnsigned with
  | true =>
    obtain ⟨hprec, hhead, hnumber⟩ := number_unsigned hsign
    rw [operand_of_le (by omega), if_pos rfl]
    exact reads_minus_number hhead (hnumber 5)
  | false =>
    have hhead : ∃ c cs, e.operand 5 = c :: cs ∧ isDigit c = false := by
      rcases Nat.lt_or_ge e.precedence 5 with hlt | hge
      · rw [operand_of_lt hlt]
        exact ⟨'(', _, rfl, by decide⟩
      · rw [operand_of_le hge]
        exact head_of_not_unsigned hspelled hge hsign
    rw [if_neg (by decide)]
    exact reads_minus (solid_operand hspelled) hhead
      (reads_operand hspelled h hinner (by decide) (by decide))

theorem shown_binary {op : Op} {l r : Expr} (hl : l.Spelled) (hr : r.Spelled)
    (hleft : Shown inner l) (hright : Shown inner r)
    (hleft' : l.precedence < leftMin op → ReadBy inner l)
    (hright' : r.precedence < op.precedence + 1 → ReadBy inner r) :
    Shown inner (binary op l r) := by
  have hprec := op.precedence_mem
  have hreads : Reads inner (op.precedence + 1) (r.operand (op.precedence + 1)) r.asRead :=
    reads_operand hr hright hright' (by omega) (by omega)
  cases hcompare : op.isComparison with
  | true =>
    have htwo : op.precedence = 2 := by simpa [Op.isComparison] using hcompare
    have hmin : leftMin op = 3 := by simp [leftMin, hcompare, htwo]
    rw [hmin] at hleft'
    rw [htwo] at hreads
    constructor
    · rw [text_binary, hmin, htwo]
      show Reads inner op.precedence _ (binary op l.asRead r.asRead)
      rw [htwo]
      exact Reads.compare hcompare (reads_operand hl hleft hleft' (by decide) (by decide)) hreads
        (solid_operand hr)
    · intro hgroups
      change GroupsLeft op.precedence at hgroups
      rw [htwo] at hgroups
      simp [GroupsLeft] at hgroups
  | false =>
    have hmin : leftMin op = op.precedence := by simp [leftMin, hcompare]
    have hgroups : GroupsLeft op.precedence := by
      have htwo : op.precedence ≠ 2 := by simpa [Op.isComparison] using hcompare
      unfold GroupsLeft
      omega
    rw [hmin] at hleft'
    have hchains : Chains inner op.precedence (binary op l r).text.toList
        (binary op l.asRead r.asRead) := by
      rw [text_binary, hmin]
      exact (chains_operand hl hleft hleft' hgroups).join hreads (solid_operand hr)
    exact ⟨hchains.reads hgroups, fun _ => hchains⟩

/-! ### Lengths -/

theorem length_operand : e.text.toList.length ≤ (e.operand k).length ∧
    (e.precedence < k → e.text.toList.length + 2 ≤ (e.operand k).length) := by
  rcases Nat.lt_or_ge e.precedence k with hlt | hge
  · rw [operand_of_lt hlt]
    simp only [List.length_cons, List.length_append, List.length_nil]
    omega
  · rw [operand_of_le hge]
    omega

theorem length_lt_brackets {idx : List Expr} (h : e ∈ idx) :
    e.text.toList.length < (brackets (idx.map (·.text))).toList.length := by
  obtain ⟨i, idx, rfl⟩ := List.exists_cons_of_ne_nil (List.ne_nil_of_mem h)
  have hlen := length_le_intercalate ", ".toList
    (List.mem_map_of_mem (f := fun e : Expr => e.text.toList) h)
  rw [← List.append_nil (brackets ((i :: idx).map (·.text))).toList, toList_brackets_cons,
    toList_commas, List.length_cons, List.length_append]
  omega

/-- Given a parser for the shorter expressions, each strength is read by its own parser. -/
theorem shown_of_inner {n : Nat}
    (hinner : ∀ e : Expr, e.Spelled → e.text.toList.length < n → ReadBy inner e)
    (hspelled : e.Spelled) (hlen : e.text.toList.length ≤ n) : Shown inner e := by
  induction e with
  | var v =>
    exact shown_of_reads (k := 6) (by decide) rfl (reads_name (spelled_var.1 hspelled))
  | int m => exact shown_int (spelled_int.1 hspelled)
  | float x => exact shown_float x
  | read b idx _ =>
    obtain ⟨hb, hidx⟩ := spelled_read.1 hspelled
    rw [text, texts_eq_map, String.toList_append, List.length_append] at hlen
    refine shown_of_reads (k := 6) (by decide) rfl ?_
    rw [text, texts_eq_map, asRead, asReadAll_eq_map]
    refine reads_access hb idx (fun e he r hr => ?_) fun e he => solid_text (hidx e he)
    have hshort := length_lt_brackets he
    exact hinner e (hidx e he) (by omega) r (hr.follows 1)
  | binary op l r ihl ihr =>
    obtain ⟨hl, hr⟩ := spelled_binary.1 hspelled
    have hleft := length_operand (k := leftMin op) (e := l)
    have hright := length_operand (k := op.precedence + 1) (e := r)
    rw [text_binary, List.length_append, List.length_cons, List.length_append,
      List.length_cons] at hlen
    exact shown_binary hl hr (ihl hl (by omega)) (ihr hr (by omega))
      (fun hlt => hinner l hl (by have := hleft.2 hlt; omega))
      (fun hlt => hinner r hr (by have := hright.2 hlt; omega))
  | neg e ih =>
    have he := spelled_neg.1 hspelled
    have hoperand := length_operand (k := 5) (e := e)
    rw [text_neg, List.length_cons] at hlen
    exact shown_neg he (ih he (by omega)) fun _ => hinner e he (by omega)

theorem readBy_exprUpTo (bound : List Char) (hspelled : e.Spelled)
    (hlen : e.text.toList.length < bound.length) : ReadBy (exprUpTo bound) e := by
  induction bound generalizing e with
  | nil => cases hlen
  | cons c bound ih =>
    have hshown : Shown (exprUpTo bound) e :=
      shown_of_inner (fun e' he' hlt => ih he' hlt) hspelled (Nat.le_of_lt_succ hlen)
    exact hshown.reads.weaken (Nat.le_refl 1) e.one_le_precedence

end Expr

/-- **The text of an expression is read back** where something follows that ends it. -/
theorem expr_append {e : Expr} (h : e.Spelled) (hrest : Follows 1 rest) :
    expr (e.text.toList ++ rest) = .ok e.asRead rest :=
  Expr.readBy_exprUpTo _ h (by rw [List.length_cons, List.length_append]; omega) rest hrest

end LoopNest
