import LoopNest.Proofs.Reading.Basic
import LoopNest.Schedule.Script

/-!
# Scripts are read back as they were written

`Schedule.parse_text`: the text of a schedule is read as that schedule, and the step of each line is
found where it stands.

A step is written as a call (`Step.call`), and calls are read back whatever their arguments are,
lists within lists included (`Script.call_append`). Strings hold no line feed once they are quoted,
so the lines of the text are the steps.
-/

namespace LoopNest

open Text Text.Parser Decimal

namespace Script

/-! ## Calls as text -/

mutual

def Value.text : Value → String
  | .str s => quote s
  | .int n => n.text
  | .bool b => toString b
  | .word w => w
  | .list items => "[" ++ ", ".intercalate (Value.texts items) ++ "]"

def Value.texts : List Value → List String
  | [] => []
  | v :: vs => v.text :: Value.texts vs

end

theorem Value.texts_eq_map (vs : List Value) : Value.texts vs = vs.map (·.text) := by
  induction vs with
  | nil => rfl
  | cons v vs ih => rw [Value.texts, ih, List.map_cons]

/-- A bare word is a name, and not one that stands for a truth value. -/
def isBareWord (w : String) : Bool := isIdent w && !(["true", "True", "false", "False"].contains w)

mutual

/-- Bare words in the value are read as such. -/
def Value.isPlain : Value → Bool
  | .word w => isBareWord w
  | .list items => Value.arePlain items
  | _ => true

def Value.arePlain : List Value → Bool
  | [] => true
  | v :: vs => v.isPlain && Value.arePlain vs

end

theorem Value.arePlain_iff {vs : List Value} :
    Value.arePlain vs = true ↔ ∀ v ∈ vs, v.isPlain = true := by
  induction vs with
  | nil => simp [Value.arePlain]
  | cons v vs ih => simp [Value.arePlain, ih]

def argText : Option String × Value → String
  | (none, v) => v.text
  | (some name, v) => name ++ " = " ++ v.text

def Call.text (c : Call) : String := c.op ++ "(" ++ ", ".intercalate (c.args.map argText) ++ ")"

/-! ## Values -/

variable {rest : List Char} {v : Value}

/-- A decimal integer is read back where no digit follows. -/
theorem integer_append (w : Word) (hrest : ∀ c ∈ rest.head?, isDigit c = false) :
    integer (w.text.toList ++ rest) = .ok w rest := by
  have hdigits : takeWhile1 isDigit (Nat.toDigits 10 w.toInt.natAbs ++ rest) =
      .ok (Nat.toDigits 10 w.toInt.natAbs) rest :=
    takeWhile1_append Nat.toDigits_ne_nil (fun _ => isDigit_of_mem_toDigits) hrest
  rw [Word.text_toList]
  by_cases hneg : w.toInt < 0
  · have hsign : optional (text "-") ('-' :: (Nat.toDigits 10 w.toInt.natAbs ++ rest)) =
        .ok (some ()) (Nat.toDigits 10 w.toInt.natAbs ++ rest) := rfl
    have hvalue : -(ofDigits (Nat.toDigits 10 w.toInt.natAbs) : Int) = w.toInt := by
      rw [ofDigits_toDigits]
      omega
    rw [if_pos hneg, List.singleton_append, List.cons_append, integer, bind_ok hsign,
      bind_ok hdigits]
    simp only [Option.isSome_some, if_true, hvalue, Word.ofInt?_toInt]
    rfl
  · have hsign : optional (text "-") (Nat.toDigits 10 w.toInt.natAbs ++ rest) =
        .ok none (Nat.toDigits 10 w.toInt.natAbs ++ rest) := by
      refine optional_of_fails (text_fails (c := '-') rfl fun c hc hminus => ?_)
      have hdigit : isDigit c = true := head_append Nat.toDigits_ne_nil rest
        (fun _ => isDigit_of_mem_toDigits) c hc
      rw [hminus] at hdigit
      exact absurd hdigit (by decide)
    have hvalue : (ofDigits (Nat.toDigits 10 w.toInt.natAbs) : Int) = w.toInt := by
      rw [ofDigits_toDigits]
      omega
    rw [if_neg hneg, List.nil_append, integer, bind_ok hsign, bind_ok hdigits]
    simp only [Option.isSome_none, Bool.false_eq_true, if_false, hvalue, Word.ofInt?_toInt]
    rfl

/-! ## Lists in brackets -/

section items

variable {α ι : Type} {p : Parser α} {write : ι → List Char} {value : ι → α} {rest : List Char}
  {left right : String}

theorem items_append (hright : right = ")" ∨ right = "]") (all : List ι)
    (hread : ∀ i ∈ all, ∀ r, EndsItem r → p (write i ++ r) = .ok (value i) r)
    (hsolid : ∀ i ∈ all, ∀ r, Solid (write i ++ r)) (hnone : Fails p (right.toList ++ rest)) :
    items left p right (left.toList ++
      (", ".toList.intercalate (all.map write) ++ (right.toList ++ rest))) =
      .ok (all.map value) rest := by
  have hends : EndsItem (right.toList ++ rest) := by
    rcases hright with rfl | rfl
    · exact ⟨')', rest, rfl, by decide⟩
    · exact ⟨']', rest, rfl, by decide⟩
  have hstart : Solid (", ".toList.intercalate (all.map write) ++ (right.toList ++ rest)) := by
    cases all with
    | nil => exact hends.solid
    | cons i all =>
      rw [List.map_cons, intercalate_cons, List.append_assoc]
      exact hsolid i (.head _) _
  have hitem : ∀ i ∈ all, ∀ r, EndsItem r →
      (do let a ← p; blanks; return a : Parser α) (write i ++ r) = .ok (value i) r := by
    intro i hi r hr
    rw [bind_ok (hread i hi r hr), bind_ok (blanks_of_solid hr.solid)]
    rfl
  have hsep : ∀ i ∈ all, ∀ r,
      (do text ","; blanks : Parser Unit) (", ".toList ++ (write i ++ r)) =
        .ok () (write i ++ r) := by
    intro i hi r
    exact (bind_ok (text_append "," (' ' :: (write i ++ r)))).trans (blanks_space (hsolid i hi r))
  have hend : Fails (do text ","; blanks : Parser Unit) (right.toList ++ rest) := by
    refine (text_fails (c := ',') rfl ?_).bind
    rcases hright with rfl | rfl <;> exact forall_head (by decide)
  have hall := separated_append (by decide)
    (fun i hi r hr => (bind_ok (hsep i hi r)).trans (hitem i hi r (hends.of_mark hr)))
    hend.bind (fun i hi r hr => hitem i hi r (hends.of_mark hr)) hnone.bind
  rw [items, bind_ok (text_append left _), bind_ok (blanks_of_solid hstart), bind_ok hall,
    bind_ok (text_append right rest)]
  rfl

end items

/-! ## Values -/

theorem string_fails {s : List Char} (h : ∀ c ∈ s.head?, c ≠ '"' ∧ c ≠ '\'') :
    Fails (do return .str (← orElse quoted singleQuoted) : Parser Value) s := by
  have hdouble : Fails quoted s :=
    (text_fails (c := '"') rfl fun c hc => (h c hc).1).bind
  have hsingle : Fails singleQuoted s :=
    (text_fails (c := '\'') rfl fun c hc => (h c hc).2).bind
  exact (hdouble.orElse hsingle).bind

theorem integer_fails {s : List Char} (h : ∀ c ∈ s.head?, c ≠ '-' ∧ isDigit c = false) :
    Fails (do return .int (← integer) : Parser Value) s := by
  have hsign : optional (text "-") s = .ok none s :=
    optional_of_fails (text_fails (c := '-') rfl fun c hc => (h c hc).1)
  have hdigits : Fails (takeWhile1 isDigit) s :=
    takeWhile1_fails fun c hc => (h c hc).2
  exact Fails.bind (Fails.bind_of_ok hsign hdigits.bind)

theorem list_fails {p : Parser Value} {s : List Char} (h : ∀ c ∈ s.head?, c ≠ '[') :
    Fails (do return .list (← items "[" p "]") : Parser Value) s :=
  (text_fails (c := '[') rfl h).bind.bind

/-- Bare words and truth values. -/
theorem word_append {w : String} (hw : isIdent w = true) {rest : List Char} (hrest : EndsItem rest)
    (c : Char) (bound : List Char) :
    valueUpTo (c :: bound) (w.toList ++ rest) = .ok (.ofWord w) rest := by
  have hhead := head_ident hw rest
  have hstring := string_fails fun e he =>
    ⟨ne_of_isIdentStart (hhead e he) (by decide), ne_of_isIdentStart (hhead e he) (by decide)⟩
  have hinteger := integer_fails fun e he =>
    ⟨ne_of_isIdentStart (hhead e he) (by decide), isDigit_of_isIdentStart (hhead e he)⟩
  have hlist := fun p => list_fails (p := p) fun e he => ne_of_isIdentStart (hhead e he) (by decide)
  unfold valueUpTo
  rw [orElse_of_fails hstring, orElse_of_fails hinteger, orElse_of_fails (hlist _),
    bind_ok (ident_append hw hrest.ends)]
  rfl

theorem Value.induction {Q : Value → Prop} (str : ∀ s, Q (.str s)) (int : ∀ n, Q (.int n))
    (bool : ∀ b, Q (.bool b)) (word : ∀ w, Q (.word w))
    (list : ∀ items, (∀ v ∈ items, Q v) → Q (.list items)) (v : Value) : Q v :=
  @Value.rec Q (fun vs => ∀ v ∈ vs, Q v) str int bool word list
    (nofun)
    (fun _ _ hv hvs => List.forall_mem_cons.2 ⟨hv, hvs⟩) v

theorem Value.list_text (items : List Value) : (Value.list items).text.toList =
    "[".toList ++ (", ".toList.intercalate (items.map fun v => v.text.toList) ++ "]".toList) := by
  simp [Value.text, Value.texts_eq_map, String.toList_intercalate, Function.comp_def]

/-- A list is longer than its items. -/
theorem length_add_two_le {items : List Value} {v : Value} (hv : v ∈ items) :
    v.text.toList.length + 2 ≤ (Value.list items).text.toList.length := by
  have hlen := length_le_intercalate ", ".toList
    (List.mem_map_of_mem (f := fun v : Value => v.text.toList) hv)
  rw [Value.list_text, List.length_append, List.length_append]
  simp only [show "[".toList.length = 1 from rfl, show "]".toList.length = 1 from rfl]
  omega

/-- The first character of a written word is a sign or a digit. -/
theorem int_head (n : Word) (rest : List Char) :
    ∀ c ∈ (n.text.toList ++ rest).head?, c = '-' ∨ isDigit c = true := by
  rw [Word.text_toList]
  split
  · rintro _ ⟨⟩
    exact .inl rfl
  · intro c hc
    rw [List.nil_append] at hc
    exact .inr (head_append Nat.toDigits_ne_nil rest (fun _ => isDigit_of_mem_toDigits) c hc)

/-- A sign or a digit is not the given mark. -/
theorem ne_of_sign_or_digit {c d : Char} (h : c = '-' ∨ isDigit c = true)
    (hd : d ≠ '-' ∧ isDigit d = false) : c ≠ d := by
  rintro rfl
  simp_all

theorem Value.isIdent_of_isPlain {w : String} (h : (Value.word w).isPlain = true) :
    isIdent w = true := by
  rw [Value.isPlain, isBareWord, Bool.and_eq_true] at h
  exact h.1

/-- A value starts with no blank. -/
theorem Value.solid_text {v : Value} (hv : v.isPlain = true) (rest : List Char) :
    Solid (v.text.toList ++ rest) := by
  cases v with
  | str s =>
    rw [Value.text, quote_toList]
    exact solid_mark (by decide) _
  | int n =>
    refine solid_of_head fun c hc => ?_
    rcases int_head n rest c hc with rfl | hdigit
    · decide
    · exact isCodeBlank_of_isDigit hdigit
  | bool b => cases b <;> exact solid_ident (by decide) rest
  | word w => exact solid_ident (Value.isIdent_of_isPlain hv) rest
  | list items =>
    rw [Value.list_text]
    exact solid_mark (c := '[') (by decide) _

/-- What closes a list is no value. -/
theorem valueUpTo_fails (bound : List Char) {s : List Char}
    (h : ∀ c ∈ s.head?, c = ')' ∨ c = ']') : Fails (valueUpTo bound) s := by
  cases bound with
  | nil => exact ⟨s, rfl⟩
  | cons c bound =>
    refine (string_fails fun c hc => ?_).orElse ((integer_fails fun c hc => ?_).orElse
      ((list_fails fun c hc => ?_).orElse (ident_fails fun c hc => ?_).bind)) <;>
      rcases h c hc with rfl | rfl <;> decide

/-- **Values are read back.** -/
theorem valueUpTo_append (hv : v.isPlain = true) (c : Char) {bound : List Char}
    (hbound : v.text.toList.length ≤ bound.length) (hrest : EndsItem rest) :
    valueUpTo (c :: bound) (v.text.toList ++ rest) = .ok v rest := by
  -- lists may be nested less deep than the bound is long, and brackets take characters
  induction v using Value.induction generalizing c bound rest with
  | str s =>
    refine orElse_ok ?_
    rw [Value.text, bind_ok (orElse_ok (quoted_append s rest))]
    rfl
  | int n =>
    have hhead := int_head n rest
    refine (orElse_of_fails (string_fails fun e he => ?_)).trans (orElse_ok ?_)
    · exact ⟨ne_of_sign_or_digit (hhead e he) (by decide),
        ne_of_sign_or_digit (hhead e he) (by decide)⟩
    · rw [Value.text, bind_ok (integer_append n (hrest.head (forall_mem_of_all (by decide))))]
      rfl
  | bool b => cases b <;> exact word_append (by decide) hrest c bound
  | word w =>
    have hbare : isBareWord w = true := hv
    rw [isBareWord, Bool.and_eq_true] at hbare
    refine (word_append hbare.1 hrest c bound).trans ?_
    have hword : Value.ofWord w = .word w := by
      unfold Value.ofWord
      simp_all
    rw [hword]
  | list items ih =>
    have hinner : ∀ v ∈ items, ∀ r, EndsItem r →
        valueUpTo bound (v.text.toList ++ r) = .ok v r := by
      intro v hmem r hr
      have hlen := length_add_two_le hmem
      cases bound with
      | nil => simp only [List.length_nil] at hbound; omega
      | cons d bound =>
        rw [List.length_cons] at hbound
        exact ih v hmem (Value.arePlain_iff.1 hv v hmem) d (by omega) hr
    have hall : Script.items "[" (valueUpTo bound) "]" ("[".toList ++
        (", ".toList.intercalate (items.map fun v => v.text.toList) ++ ("]".toList ++ rest))) =
        .ok (items.map id) rest :=
      items_append (.inr rfl) items hinner
        (fun v hmem => Value.solid_text (Value.arePlain_iff.1 hv v hmem))
        (valueUpTo_fails bound fun c hc => by cases hc; exact .inr rfl)
    rw [List.map_id] at hall
    rw [Value.list_text, List.append_assoc, List.append_assoc]
    refine (orElse_of_fails (string_fails ?_)).trans
      ((orElse_of_fails (integer_fails ?_)).trans (orElse_ok ?_))
    · exact forall_head (by decide)
    · exact forall_head (by decide)
    · rw [bind_ok hall]
      rfl

/-! ## Calls -/

/-- An argument is read back: its name is a name, and its value is plain. -/
def isPlainArg : Option String × Value → Bool
  | (none, v) => v.isPlain
  | (some name, v) => isIdent name && v.isPlain

theorem value_append (hv : v.isPlain = true) (hrest : EndsItem rest) :
    value (v.text.toList ++ rest) = .ok v rest :=
  valueUpTo_append hv ' ' (by simp) hrest

/-- A value without a name is not taken for a name. -/
theorem argName_fails (hv : v.isPlain = true) (hrest : EndsItem rest) :
    Fails (do let name ← ident; blanks; text "="; blanks; return name : Parser String)
      (v.text.toList ++ rest) := by
  have hequals : Fails (text "=") rest :=
    text_fails (c := '=') rfl (hrest.head (forall_mem_of_all (by decide)))
  have hword : ∀ w : String, isIdent w = true →
      Fails (do let name ← ident; blanks; text "="; blanks; return name : Parser String)
        (w.toList ++ rest) := fun w hw =>
    .bind_of_ok (ident_append hw hrest.ends)
      (.bind_of_ok (blanks_of_solid hrest.solid) hequals.bind)
  cases v with
  | str s =>
    rw [Value.text, quote_toList]
    exact (ident_fails (forall_head (by decide))).bind
  | int n =>
    refine (ident_fails fun c hc => ?_).bind
    cases hstart : isIdentStart c with
    | false => rfl
    | true =>
      rcases int_head n rest c hc with rfl | hdigit
      · exact absurd hstart (by decide)
      · rw [isDigit_of_isIdentStart hstart] at hdigit
        cases hdigit
  | bool b => cases b <;> exact hword _ (by decide)
  | word w => exact hword w (Value.isIdent_of_isPlain hv)
  | list items =>
    rw [Value.list_text]
    exact (ident_fails (forall_head (by decide))).bind

theorem arg_append {a : Option String × Value} (ha : isPlainArg a = true) (hrest : EndsItem rest) :
    arg ((argText a).toList ++ rest) = .ok a rest := by
  obtain ⟨name, v⟩ := a
  cases name with
  | none =>
    rw [arg, argText, bind_ok (optional_of_fails (argName_fails ha hrest)),
      bind_ok (value_append ha hrest)]
    rfl
  | some name =>
    rw [isPlainArg, Bool.and_eq_true] at ha
    have hname : (do let name ← ident; blanks; text "="; blanks; return name : Parser String)
        (name.toList ++ (" = ".toList ++ (v.text.toList ++ rest))) =
          .ok name (v.text.toList ++ rest) := by
      have hequals : blanks (" = ".toList ++ (v.text.toList ++ rest)) =
          .ok () ("=".toList ++ (' ' :: (v.text.toList ++ rest))) :=
        blanks_space (solid_mark (by decide) _)
      have hends : Text.Ends (" = ".toList ++ (v.text.toList ++ rest)) := ends_cons (by decide) _
      rw [bind_ok (ident_append ha.1 hends), bind_ok hequals,
        bind_ok (text_append "=" _), bind_ok (blanks_space (Value.solid_text ha.2 rest))]
      rfl
    have htext : (argText (some name, v)).toList ++ rest =
        name.toList ++ (" = ".toList ++ (v.text.toList ++ rest)) := by
      simp [argText]
    rw [htext, arg, bind_ok (optional_ok hname), bind_ok (value_append ha.2 hrest)]
    rfl

theorem argText_solid {a : Option String × Value} (ha : isPlainArg a = true) (rest : List Char) :
    Solid ((argText a).toList ++ rest) := by
  obtain ⟨name, v⟩ := a
  cases name with
  | none => exact Value.solid_text ha rest
  | some name =>
    rw [isPlainArg, Bool.and_eq_true] at ha
    rw [argText, String.toList_append, String.toList_append, List.append_assoc, List.append_assoc]
    exact solid_ident ha.1 _

theorem Call.text_toList (c : Call) : c.text.toList =
    c.op.toList ++ ("(".toList ++
      (", ".toList.intercalate (c.args.map fun a => (argText a).toList) ++ ")".toList)) := by
  simp [Call.text, String.toList_intercalate, Function.comp_def]

/-- **Calls are read back.** -/
theorem call_append {c : Call} (hop : isIdent c.op = true)
    (hargs : ∀ a ∈ c.args, isPlainArg a = true) (rest : List Char) :
    call (c.text.toList ++ rest) = .ok c rest := by
  have hvalue : Fails value (")".toList ++ rest) := valueUpTo_fails _ (forall_head (.inl rfl))
  have hnone : Fails arg (")".toList ++ rest) :=
    Fails.bind_of_ok (optional_of_fails (ident_fails (forall_head (by decide))).bind) hvalue.bind
  have hall : items "(" arg ")" ("(".toList ++
      (", ".toList.intercalate (c.args.map fun a => (argText a).toList) ++ (")".toList ++ rest))) =
      .ok (c.args.map id) rest :=
    items_append (.inl rfl) c.args (fun a ha r hr => arg_append (hargs a ha) hr)
      (fun a ha => argText_solid (hargs a ha)) hnone
  rw [List.map_id] at hall
  -- the name ends at the parenthesis
  have hends : ∀ r, Text.Ends ("(".toList ++ r) := ends_cons (by decide)
  have hsolid : ∀ r, Solid ("(".toList ++ r) := solid_mark (by decide)
  rw [Call.text_toList, List.append_assoc, List.append_assoc, List.append_assoc, Script.call,
    bind_ok (ident_append hop (hends _)), bind_ok (blanks_of_solid (hsolid _)), bind_ok hall]
  rfl

end Script

open Script

/-! ## Steps -/

namespace Step

/-- A step whose text means it: templates are bare words, and counts are words. -/
def isWritable : Step → Bool
  | .replace template _ | .replaceAll template => isBareWord template
  | .fissionAfter _ n | .liftAlloc _ n _ | .unrollBuffer _ n => n ≤ 9223372036854775807
  | _ => true

/-- The call that a step is written as. -/
def call (s : Step) : Call where
  op := s.op
  args := match s with
    | .rename name => [(none, .str name)]
    | .split loop factor outer inner perfect =>
      [(none, .str loop), (none, .int factor), (none, .list [.str outer, .str inner]),
        (some "perfect", .bool perfect)]
    | .reorder outer inner => [(none, .str outer), (none, .str inner)]
    | .fissionAfter stmt lifts => [(none, .str stmt), (some "n_lifts", .int (Int64.ofNat lifts))]
    | .liftAlloc alloc lifts keepDims =>
      [(none, .str alloc), (some "n_lifts", .int (Int64.ofNat lifts)),
        (some "keep_dims", .bool keepDims)]
    | .stageReduction name reduction => [(none, .str name), (none, .str reduction)]
    | .bindExpr name expr => [(none, .str name), (none, .str expr)]
    | .setMemory buffer space => [(none, .str buffer), (none, .word space.name)]
    | .parToSeq loop | .unroll loop => [(none, .str loop)]
    | .replace template selector => [(none, .word template), (none, .str selector)]
    | .replaceAll template => [(none, .word template)]
    | .unrollBuffer alloc dim => [(none, .str alloc), (none, .int (Int64.ofNat dim))]
    | .simplify => []

theorem toInt_count {n : Nat} (h : n ≤ 9223372036854775807) : (Int64.ofNat n).toInt = n :=
  Int64.toInt_ofNat_of_lt (by omega)

theorem text_count {n : Nat} (h : n ≤ 9223372036854775807) :
    Word.text (Int64.ofNat n) = toString n := by
  rw [Word.text, toInt_count h]
  rfl

theorem text_eq_call {s : Step} (h : s.isWritable = true) : s.text = s.call.text := by
  cases s with
  | fissionAfter _ n | liftAlloc _ n _ | unrollBuffer _ n =>
    have hn : n ≤ 9223372036854775807 := of_decide_eq_true h
    simp [Step.text, Call.text, call, argText, Value.text, text_count hn]
  | split =>
    simp [Step.text, Call.text, call, argText, Value.text, Value.texts, String.append_assoc]
  | _ => rfl

theorem isIdent_op (s : Step) : isIdent s.op = true := by
  cases s <;> simp only [op] <;> decide

theorem plain_call {s : Step} (h : s.isWritable = true) :
    ∀ a ∈ s.call.args, isPlainArg a = true := by
  have hspace : ∀ space : Space, isBareWord space.name = true := by
    intro space
    cases space <;> decide
  have hnames : ∀ name ∈ ["perfect", "n_lifts", "keep_dims"], isIdent name = true := by decide
  cases s <;> simp_all [isWritable, call, isPlainArg, Value.isPlain, Value.arePlain]

theorem count_call {param : String} {n : Nat} {b : Bound} (h : n ≤ 9223372036854775807)
    (hget : b.get? param = some (.int (Int64.ofNat n))) (default : Nat) :
    b.count param default = .ok n := by
  have hsign : (0 : Word) ≤ Int64.ofNat n := by
    rw [Int64.le_iff_toInt_le, toInt_count h]
    exact Int.natCast_nonneg n
  rw [Bound.count, hget]
  simp only [if_pos hsign, toInt_count h, Int.toNat_natCast]

theorem step_call {s : Step} (h : s.isWritable = true) : s.call.step = .ok s := by
  cases s with
  | fissionAfter stmt n =>
    show (Bound.count ⟨"fission_after", [("stmt", some (.str stmt)),
      ("n_lifts", some (.int (Int64.ofNat n)))]⟩ "n_lifts" 1).map (fissionAfter stmt) = _
    rw [count_call (of_decide_eq_true h) rfl]
    rfl
  | liftAlloc alloc n keepDims =>
    show (Bound.count ⟨"lift_alloc", [("alloc", some (.str alloc)),
      ("n_lifts", some (.int (Int64.ofNat n))), ("keep_dims", some (.bool keepDims))]⟩
        "n_lifts" 1).map (liftAlloc alloc · keepDims) = _
    rw [count_call (of_decide_eq_true h) rfl]
    rfl
  | unrollBuffer alloc n =>
    show (Bound.count ⟨"unroll_buffer", [("alloc", some (.str alloc)),
      ("dim", some (.int (Int64.ofNat n)))]⟩ "dim" 0).map (unrollBuffer alloc) = _
    rw [count_call (of_decide_eq_true h) rfl]
    rfl
  | setMemory buffer space => cases space <;> rfl
  | _ => rfl

end Step

/-! ## Lines -/

namespace Script

theorem not_mem_intercalate {c : Char} {mark : List Char} (hmark : c ∉ mark) :
    ∀ {ws : List (List Char)}, (∀ w ∈ ws, c ∉ w) → c ∉ mark.intercalate ws
  | [], _ => by simp [List.intercalate]
  | [w], h => by simpa [List.intercalate] using h
  | w :: w' :: ws, h => by
    have hws : c ∉ mark.intercalate (w' :: ws) :=
      not_mem_intercalate hmark fun v hv => h v (List.mem_cons_of_mem w hv)
    rw [List.intercalate_cons_cons]
    simp only [List.mem_append, not_or]
    exact ⟨⟨h w (.head _), hmark⟩, hws⟩

theorem newline_not_mem_ident {n : String} (h : isIdent n = true) : '\n' ∉ n.toList := by
  intro hmem
  have hrest : isIdentRest '\n' = true := isIdentRest_of_mem h hmem
  exact absurd hrest (by decide)

theorem newline_not_mem_quote (s : String) : '\n' ∉ (quote s).toList := by
  have hescape : ∀ c, '\n' ∉ escape c := by
    intro c
    unfold escape
    split
    · decide
    · decide
    · decide
    · decide
    · simp_all [eq_comm]
  rw [quote_toList]
  simp [hescape]

theorem Value.newline_not_mem {v : Value} (hv : v.isPlain = true) : '\n' ∉ v.text.toList := by
  induction v using Value.induction with
  | str s => exact newline_not_mem_quote s
  | int n =>
    have hdigit : '\n' ∉ Nat.toDigits 10 n.toInt.natAbs := fun hmem =>
      absurd (isDigit_of_mem_toDigits hmem) (by decide)
    rw [Value.text, Word.text_toList]
    split <;> simp [hdigit]
  | bool b => cases b <;> decide
  | word w => exact newline_not_mem_ident (Value.isIdent_of_isPlain hv)
  | list items ih =>
    have hitems : '\n' ∉ ", ".toList.intercalate (items.map fun v => v.text.toList) := by
      refine not_mem_intercalate (by decide) ?_
      rw [List.forall_mem_map]
      exact fun v hmem => ih v hmem (Value.arePlain_iff.1 hv v hmem)
    rw [Value.list_text]
    simpa using hitems

theorem Call.newline_not_mem {c : Call} (hop : isIdent c.op = true)
    (hargs : ∀ a ∈ c.args, isPlainArg a = true) : '\n' ∉ c.text.toList := by
  have harg : ∀ a, isPlainArg a = true → '\n' ∉ (argText a).toList := by
    rintro ⟨name, v⟩ ha
    cases name with
    | none => exact Value.newline_not_mem ha
    | some name =>
      rw [isPlainArg, Bool.and_eq_true] at ha
      simp [argText, newline_not_mem_ident ha.1, Value.newline_not_mem ha.2]
  have hall : '\n' ∉ ", ".toList.intercalate (c.args.map fun a => (argText a).toList) := by
    refine not_mem_intercalate (by decide) ?_
    rw [List.forall_mem_map]
    exact fun a ha => harg a (hargs a ha)
  rw [Call.text_toList]
  simpa [newline_not_mem_ident hop] using hall

theorem lines_append {w : List Char} (h : '\n' ∉ w) (rest : List Char) :
    lines (w ++ '\n' :: rest) = (w ++ ['\n']) :: lines rest := by
  induction w with
  | nil => rfl
  | cons c w ih =>
    obtain ⟨hc, hw⟩ := not_or.1 (mt List.mem_cons.2 h)
    rw [List.cons_append, lines, if_neg (Ne.symm hc), ih hw]
    rfl

/-- A call starts with a name and ends with a parenthesis. -/
theorem Call.trim_text {c : Call} (hop : isIdent c.op = true) :
    trimRight (c.text.toList ++ ['\n']) = c.text.toList ∧ trimLeft c.text.toList = c.text.toList ∧
      ∃ d cs, c.text.toList = d :: cs ∧ d ≠ '#' := by
  obtain ⟨d, cs, hname, hd, -⟩ := isIdent_iff.1 hop
  have hfirst : ∃ cs, c.text.toList = d :: cs := by
    rw [Call.text_toList, hname]
    exact ⟨_, rfl⟩
  have hlast : ∃ w, c.text.toList = w ++ [')'] := by
    rw [Call.text_toList, ← List.append_assoc, ← List.append_assoc]
    exact ⟨_, rfl⟩
  refine ⟨?_, ?_, ?_⟩
  · obtain ⟨w, hw⟩ := hlast
    rw [hw, trimRight, List.reverse_append, List.reverse_append]
    show (List.dropWhile isBlank (')' :: w.reverse)).reverse = _
    rw [List.dropWhile_cons_of_neg (by decide), List.reverse_cons, List.reverse_reverse]
  · obtain ⟨cs, hcs⟩ := hfirst
    rw [hcs, trimLeft, List.dropWhile_cons_of_neg (by simp [isBlank_of_isIdentStart hd])]
  · obtain ⟨cs, hcs⟩ := hfirst
    exact ⟨d, cs, hcs, ne_of_isIdentStart hd (by decide)⟩

/-- The line of a writable step is read as the step, from its first character to its last. -/
theorem parseLine_text {s : Step} (h : s.isWritable = true) (start : Nat) :
    parseLine start (s.text.toList ++ ['\n']) =
      .ok (some (s, ⟨start, start + byteLength s.text.toList⟩)) := by
  have hcall : Call.parse s.text = .ok s.call := by
    have hread := call_append (Step.isIdent_op s) (Step.plain_call h) []
    rw [List.append_nil, ← Step.text_eq_call h] at hread
    rw [Call.parse, hread]
    rfl
  obtain ⟨hright, hleft, d, cs, htext, hd⟩ :=
    Call.trim_text (c := s.call) (Step.isIdent_op s)
  rw [← Step.text_eq_call h] at hright hleft htext
  rw [parseLine]
  simp only [hright, hleft]
  split
  next hnil => exact absurd (htext.symm.trans hnil) (by simp)
  next hcomment => exact absurd (List.cons.inj (htext.symm.trans hcomment)).1 hd
  next =>
    rw [String.ofList_toList, hcall]
    simp only [Step.step_call h]
    simp

end Script

/-- Where the steps of the schedule's text stand, if it starts at byte `start`: each is one line. -/
def Schedule.spans (start : Nat) : Schedule → List Span
  | [] => []
  | s :: rest =>
    let stop := start + byteLength s.text.toList
    ⟨start, stop⟩ :: Schedule.spans (stop + 1) rest

theorem Schedule.length_spans (s : Schedule) (start : Nat) :
    (Schedule.spans start s).length = s.length := by
  induction s generalizing start with
  | nil => rfl
  | cons step s ih => rw [Schedule.spans, List.length_cons, List.length_cons, ih]

namespace Script

theorem parseLines_text {s : Schedule} (h : ∀ step ∈ s, step.isWritable = true) (start : Nat) :
    parseLines start (lines (Schedule.text s).toList) = .ok (s.zip (Schedule.spans start s)) := by
  induction s generalizing start with
  | nil => rfl
  | cons step s ih =>
    obtain ⟨hstep, hs⟩ := List.forall_mem_cons.1 h
    have hnewline : '\n' ∉ step.text.toList := by
      rw [Step.text_eq_call hstep]
      exact Call.newline_not_mem (Step.isIdent_op step) (Step.plain_call hstep)
    have htext : (Schedule.text (step :: s)).toList =
        step.text.toList ++ '\n' :: (Schedule.text s).toList := by
      simp [Schedule.text, String.toList_join]
    have hlength : byteLength (step.text.toList ++ ['\n']) = byteLength step.text.toList + 1 := by
      rw [byteLength_append]
      rfl
    rw [htext, lines_append hnewline, parseLines, parseLine_text hstep, hlength, ← Nat.add_assoc]
    show (parseLines _ _ >>= _) = _
    rw [ih hs]
    rfl

end Script

/-- **The text of a schedule is read as that schedule**, and each step is found where its line
stands. -/
theorem Schedule.parse_text {s : Schedule} (h : ∀ step ∈ s, step.isWritable = true) :
    Script.parse (Schedule.text s) = .ok ⟨s, Schedule.spans 0 s⟩ ∧
      (Schedule.spans 0 s).length = s.length := by
  have hlength : (Schedule.spans 0 s).length = s.length := Schedule.length_spans s 0
  refine ⟨?_, hlength⟩
  rw [Script.parse, parseLines_text h]
  show Except.ok _ = _
  rw [List.map_fst_zip (Nat.le_of_eq hlength.symm), List.map_snd_zip (Nat.le_of_eq hlength)]

/-- A step whose strings hold what has a meaning in scripts: quotes, escapes, line feeds, brackets,
commas and the marks of comments. -/
def Schedule.marked : Schedule :=
  [.bindExpr "a\"b\\n\t# no, // \n)" "x[i] #\r\n", .split "\\" (-8) "'" "]," true, .simplify,
    .replace "avx" " ", .unrollBuffer "" 9223372036854775807]

theorem Schedule.marked_parse_text :
    Script.parse (Schedule.text Schedule.marked) =
        .ok ⟨Schedule.marked, Schedule.spans 0 Schedule.marked⟩ ∧
      (Schedule.spans 0 Schedule.marked).length = Schedule.marked.length :=
  Schedule.parse_text (by decide)

end LoopNest
