import LoopNest.Affine
import LoopNest.Eval.Env
import Mathlib

/-!
# The value of an index expression over unbounded integers

`Env.index` evaluates index expressions in machine words and fails where a result is no word.
`Env.wide?` evaluates the same expressions over the integers: whatever `Env.index` gives is its value
(`wide?_of_index`), and where `wide?` gives a value `Env.index` gives it too or overflows on the way
(`index_of_wide?`). Rewriting an expression keeps the unbounded value and may change where it
overflows, so the unbounded value is what two forms of one expression have in common.

An `Evaluator` is anything between the two. `Evaluator.checked` is `Env.index` itself and
`Evaluator.wide` asks only the final value to be a word.
-/

namespace LoopNest

/-- A computation that ends with a value went through a value of its first part. -/
theorem except_bind_eq_ok {ε β γ : Type} {x : Except ε β} {f : β → Except ε γ} {c : γ} :
    (x >>= f) = .ok c ↔ ∃ b, x = .ok b ∧ f b = .ok c := by
  cases x with
  | ok b | error e => simp [bind, Except.bind]

theorem option_bind_eq_some {β γ : Type} {x : Option β} {f : β → Option γ} {c : γ} :
    (x >>= f) = some c ↔ ∃ b, x = some b ∧ f b = some c :=
  Option.bind_eq_some_iff

theorem mapM_eq_ok {ε β γ : Type} {f : β → Except ε γ} {l : List β} {r : List γ}
    (h : l.mapM f = .ok r) : List.Forall₂ (fun b c => f b = .ok c) l r := by
  induction l generalizing r with
  | nil =>
    cases h
    exact .nil
  | cons b l ih =>
    rw [List.mapM_cons, except_bind_eq_ok] at h
    obtain ⟨c, hc, h⟩ := h
    rw [except_bind_eq_ok] at h
    obtain ⟨cs, hcs, h⟩ := h
    cases h
    exact .cons hc (ih hcs)

theorem mapM_eq_some {β γ : Type} {f : β → Option γ} {l : List β} {l' : List γ} :
    l.mapM f = some l' ↔ List.Forall₂ (fun b c => f b = some c) l l' := by
  induction l generalizing l' with
  | nil => simp [eq_comm]
  | cons b l ih =>
    simp only [List.mapM_cons, option_bind_eq_some, ih, Option.pure_def,
      Option.some.injEq, List.forall₂_cons_left_iff, eq_comm (a := l'), exists_and_left]

theorem noOverflow_eq_ok {β : Type} {o : Option β} {b : β} : noOverflow o = .ok b ↔ o = some b := by
  cases o with
  | none | some a => simp [noOverflow]

/-! ## Words as integers -/

namespace Word

variable {n a b c : Word}

theorem toInt_ofNat {k : Nat} (h : k < n.toInt.toNat) : (Int64.ofNat k).toInt = k := by
  have hn := toInt_mem n
  rw [← Int64.ofInt_eq_ofNat, Int64.toInt_ofInt_of_le (by omega) (by omega)]

theorem ofNat_ne {k k' : Nat} (hk : k < n.toInt.toNat) (hk' : k' < n.toInt.toNat) (hne : k ≠ k') :
    Int64.ofNat k ≠ Int64.ofNat k' := by
  intro heq
  have hint := congrArg Int64.toInt heq
  rw [toInt_ofNat hk, toInt_ofNat hk'] at hint
  omega

theorem toInt_neg_one : Int64.toInt (-1) = -1 := by decide

theorem toInt_sub_one (h : 1 ≤ n.toInt) : (n - 1).toInt = n.toInt - 1 := by
  have hn := toInt_mem n
  rw [Int64.toInt_sub, show (1 : Word).toInt = 1 from rfl, Int.bmod_eq_of_le (by omega) (by omega)]

theorem add?_eq_some : add? a b = some c ↔ c.toInt = a.toInt + b.toInt := ofInt?_eq_some

theorem zero_add? (n : Word) : add? 0 n = some n := add?_eq_some.2 (by simp)

theorem sub?_eq_some : sub? a b = some c ↔ c.toInt = a.toInt - b.toInt := ofInt?_eq_some

theorem mul?_eq_some : mul? a b = some c ↔ c.toInt = a.toInt * b.toInt := ofInt?_eq_some

theorem neg?_eq_some : neg? a = some c ↔ c.toInt = -a.toInt := ofInt?_eq_some

theorem abs?_eq_some : abs? a = some c ↔ c.toInt = a.toInt.natAbs := ofInt?_eq_some

theorem toInt_eq_zero : a.toInt = 0 ↔ a = 0 := by
  rw [← Int64.toInt_inj]
  rfl

theorem div?_eq_some : div? a b = some c ↔ b.toInt ≠ 0 ∧ c.toInt = a.toInt / b.toInt := by
  unfold div?
  by_cases hb : b = 0
  · simp [hb]
  · have hb' : b.toInt ≠ 0 := fun h => hb (toInt_eq_zero.1 h)
    simp [hb, hb', ofInt?_eq_some]

theorem mod?_eq_some :
    mod? a b = some c ↔ (∃ q, div? a b = some q) ∧ c.toInt = a.toInt % b.toInt := by
  unfold mod?
  cases div? a b with
  | none => simp
  | some q => simp [ofInt?_eq_some]

end Word

/-! ## Unbounded evaluation -/

namespace Op

/-- The quotient of integers, as long as it is a word. -/
def quotient? (x y : Int) : Option Int :=
  if y = 0 then none else (Word.ofInt? (x / y)).map (·.toInt)

/-- The exact result of an arithmetic operator. Quotients have to be words and remainders go with
quotients, as they do in machine arithmetic. -/
def onInts? : Op → Int → Int → Option Int
  | add, x, y => some (x + y)
  | sub, x, y => some (x - y)
  | mul, x, y => some (x * y)
  | div, x, y => quotient? x y
  | mod, x, y => (quotient? x y).map fun _ => x % y
  | _, _, _ => none

/-- The result in machine arithmetic. -/
def onWords? : Op → Word → Word → Option Word
  | add, x, y => Word.add? x y
  | sub, x, y => Word.sub? x y
  | mul, x, y => Word.mul? x y
  | div, x, y => Word.div? x y
  | mod, x, y => Word.mod? x y
  | _, _, _ => none

theorem quotient?_eq_some {x y z : Int} :
    quotient? x y = some z ↔ y ≠ 0 ∧ z = x / y ∧ ∃ w : Word, w.toInt = z := by
  unfold quotient?
  by_cases hy : y = 0
  · simp [hy]
  · simp only [hy, if_false, Option.map_eq_some_iff, Word.ofInt?_eq_some, ne_eq, not_false_eq_true,
      true_and]
    constructor
    · rintro ⟨w, hw, rfl⟩
      exact ⟨hw, w, rfl⟩
    · rintro ⟨rfl, w, hw⟩
      exact ⟨w, hw, hw⟩

theorem quotient?_toInt {a b q : Word} (h : Word.div? a b = some q) :
    quotient? a.toInt b.toInt = some q.toInt := by
  obtain ⟨hb, hq⟩ := Word.div?_eq_some.1 h
  exact quotient?_eq_some.2 ⟨hb, hq, q, rfl⟩

/-- What machine arithmetic gives is the exact result. -/
theorem onInts?_of_onWords? {op : Op} {x y n : Word} (h : op.onWords? x y = some n) :
    op.onInts? x.toInt y.toInt = some n.toInt := by
  cases op with
  | add => rw [onInts?, Word.add?_eq_some.1 h]
  | sub => rw [onInts?, Word.sub?_eq_some.1 h]
  | mul => rw [onInts?, Word.mul?_eq_some.1 h]
  | div => exact quotient?_toInt h
  | mod =>
    obtain ⟨⟨q, hq⟩, hmod⟩ := Word.mod?_eq_some.1 h
    rw [onInts?, quotient?_toInt hq, hmod]
    rfl
  | _ => cases h

end Op

namespace Env

/-- The index that a name stands for. -/
def value? (env : Env) (name : String) : Option Word :=
  match env.lookup name with
  | some (.index n) => some n
  | _ => none

/-- The view that a name stands for. -/
def view? (env : Env) (name : String) : Option View :=
  match env.lookup name with
  | some (.buffer v) => some v
  | _ => none

theorem lookup_bind (env : Env) (x y : String) (b : Binding) :
    (env.bind x b).lookup y = if y = x then some b else env.lookup y := by
  by_cases h : y = x
  · simp [bind, h]
  · have hb : (y == x) = false := by simp [h]
    simp [bind, List.lookup_cons, h, hb]

variable {env : Env} {x : String} {n : Word} {op : Op} {l r e : Expr} {z : Int}

/-- A new name hides none of the others. -/
theorem lookup_bind_new {name : String} (hnew : env.lookup name = none) (b : Binding)
    (hx : (env.lookup x).isSome) : (env.bind name b).lookup x = env.lookup x := by
  rw [lookup_bind, if_neg]
  rintro rfl
  rw [hnew] at hx
  cases hx

theorem value?_eq_some : env.value? x = some n ↔ env.lookup x = some (.index n) := by
  unfold value?
  split
  · simp_all
  · simp_all

theorem view?_eq_some {v : View} : env.view? x = some v ↔ env.lookup x = some (.buffer v) := by
  unfold view?
  split
  · simp_all
  · simp_all

theorem value?_bind (env : Env) (x y : String) (b : Binding) :
    (env.bind x b).value? y =
      if y = x then (match b with | .index n => some n | .buffer _ => none) else env.value? y := by
  unfold value?
  rw [lookup_bind]
  by_cases h : y = x
  · cases b <;> simp [h]
  · simp [h]

theorem view?_bind (env : Env) (x y : String) (b : Binding) :
    (env.bind x b).view? y =
      if y = x then (match b with | .index _ => none | .buffer v => some v) else env.view? y := by
  unfold view?
  rw [lookup_bind]
  by_cases h : y = x
  · cases b <;> simp [h]
  · simp [h]

section inversion

variable {y : String} {k : Word} {v w : View}

theorem value?_bind_index : (env.bind x (.index n)).value? y = some k ↔
    y = x ∧ n = k ∨ y ≠ x ∧ env.value? y = some k := by
  rw [value?_bind]
  split <;> simp_all

theorem value?_bind_buffer :
    (env.bind x (.buffer v)).value? y = some k ↔ y ≠ x ∧ env.value? y = some k := by
  rw [value?_bind]
  split <;> simp_all

theorem view?_bind_index :
    (env.bind x (.index n)).view? y = some v ↔ y ≠ x ∧ env.view? y = some v := by
  rw [view?_bind]
  split <;> simp_all

theorem view?_bind_buffer : (env.bind x (.buffer v)).view? y = some w ↔
    y = x ∧ v = w ∨ y ≠ x ∧ env.view? y = some w := by
  rw [view?_bind]
  split <;> simp_all

end inversion

theorem view?_bind_of_ne {y : String} (h : x ≠ y) (b : Binding) :
    (env.bind x b).view? y = env.view? y := by
  rw [view?_bind, if_neg h.symm]

/-- A loop variable under a new name hides no buffer. -/
theorem view?_bind_new {v : String} (hv : env.lookup v = none) (x : String) :
    (env.bind v (.index n)).view? x = env.view? x := by
  rw [view?_bind]
  split
  next heq => rw [heq, view?, hv]
  · rfl

theorem view_eq_ok {v : View} : env.view x = .ok v ↔ env.view? x = some v := by
  unfold view view?
  cases env.lookup x with
  | none => simp [failWith]
  | some b => cases b <;> simp [failWith]

theorem index_var_eq_ok : env.index (.var x) = .ok n ↔ env.value? x = some n := by
  unfold index value?
  cases env.lookup x with
  | none => simp [failWith]
  | some b => cases b <;> simp [failWith]

/-- The value of an index expression over the integers. -/
def wide? (env : Env) : Expr → Option Int
  | .var v => (env.value? v).map (·.toInt)
  | .int n => some n.toInt
  | .binary op l r => do op.onInts? (← env.wide? l) (← env.wide? r)
  | .neg e => do return -(← env.wide? e)
  | .float _ => none
  | .read _ _ => none

-- the two evaluations unfold on a given expression
attribute [local simp] index wide? Op.onInts?

theorem wide?_binary_eq_some :
    env.wide? (.binary op l r) = some z ↔
      ∃ x y, env.wide? l = some x ∧ env.wide? r = some y ∧ op.onInts? x y = some z := by
  simp only [wide?, option_bind_eq_some, exists_and_left]

theorem wide?_neg_eq_some : env.wide? (.neg e) = some z ↔ ∃ x, env.wide? e = some x ∧ z = -x := by
  simp only [wide?, option_bind_eq_some, Option.pure_def, Option.some.injEq, eq_comm (a := z)]

theorem onWords?_of_index (h : env.index (.binary op l r) = .ok n) :
    ∃ x y, env.index l = .ok x ∧ env.index r = .ok y ∧ op.onWords? x y = some n := by
  simp only [index, except_bind_eq_ok] at h
  obtain ⟨x, hx, y, hy, h⟩ := h
  refine ⟨x, y, hx, hy, ?_⟩
  cases op with
  | add | sub | mul => exact noOverflow_eq_ok.1 h
  | div | mod =>
    simp only at h
    split at h
    next hq => simpa [Op.onWords?, hq] using h
    · cases h
  | _ => simp [failWith] at h

/-- **Machine evaluation is exact.** A word that an index expression evaluates to is its unbounded
value. -/
theorem wide?_of_index (h : env.index e = .ok n) : env.wide? e = some n.toInt := by
  induction e generalizing n with
  | var v => simp [index_var_eq_ok.1 h]
  | int m =>
    simp only [index, Except.ok.injEq] at h
    simp [h]
  | binary op l r ihl ihr =>
    obtain ⟨x, y, hx, hy, h⟩ := onWords?_of_index h
    exact wide?_binary_eq_some.2 ⟨_, _, ihl hx, ihr hy, Op.onInts?_of_onWords? h⟩
  | neg e ih =>
    simp only [index, except_bind_eq_ok] at h
    obtain ⟨x, hx, h⟩ := h
    rw [Word.neg?_eq_some.1 (noOverflow_eq_ok.1 h)]
    exact wide?_neg_eq_some.2 ⟨x.toInt, ih hx, rfl⟩
  | float x | read b idx => simp [failWith] at h

/-- An exact result is what machine arithmetic gives, unless it is no word. -/
theorem index_of_onInts? {x y : Word} (hx : env.index l = .ok x) (hy : env.index r = .ok y)
    (hz : op.onInts? x.toInt y.toInt = some z) :
    (∃ n : Word, n.toInt = z ∧ env.index (.binary op l r) = .ok n) ∨
      env.index (.binary op l r) = .error .overflow := by
  have hstep {o : Option Word} {z : Int} (ho : o = Word.ofInt? z) :
      (∃ n : Word, n.toInt = z ∧ noOverflow o = .ok n) ∨ noOverflow o = .error .overflow := by
    cases hn : Word.ofInt? z with
    | none => simp [ho, hn, noOverflow]
    | some n => exact .inl ⟨n, Word.ofInt?_eq_some.1 hn, by simp [ho, hn, noOverflow]⟩
  simp only [index, hx, hy]
  cases op with
  | add | sub | mul =>
    obtain rfl := Option.some.inj hz
    exact hstep rfl
  | div =>
    obtain ⟨hy0, rfl, q, hq⟩ := Op.quotient?_eq_some.1 hz
    refine .inl ⟨q, hq, ?_⟩
    simp [Bind.bind, Except.bind, Word.div?_eq_some.2 ⟨hy0, hq⟩]
  | mod =>
    simp only [Op.onInts?, Option.map_eq_some_iff] at hz
    obtain ⟨t, ht, rfl⟩ := hz
    obtain ⟨hy0, rfl, q, hq⟩ := Op.quotient?_eq_some.1 ht
    -- the remainder is smaller than the divisor, so it is a word
    obtain ⟨m, hm⟩ : ∃ m : Word, m.toInt = x.toInt % y.toInt := by
      have h1 := Int.emod_nonneg x.toInt hy0
      have h2 := Int.emod_lt x.toInt hy0
      have h3 := Word.toInt_mem y
      exact ⟨Int64.ofInt (x.toInt % y.toInt), Int64.toInt_ofInt_of_le (by omega) (by omega)⟩
    refine .inl ⟨m, hm, ?_⟩
    have hmod := Word.mod?_eq_some.2 ⟨⟨q, Word.div?_eq_some.2 ⟨hy0, hq⟩⟩, hm⟩
    simp [Bind.bind, Except.bind, hmod]
  | _ => simp at hz

/-- **Only overflow is lost.** Where an index expression has an unbounded value, machine evaluation
gives that value or overflows. -/
theorem index_of_wide? (h : env.wide? e = some z) :
    (∃ n : Word, n.toInt = z ∧ env.index e = .ok n) ∨ env.index e = .error .overflow := by
  induction e generalizing z with
  | var v =>
    simp only [wide?, Option.map_eq_some_iff] at h
    obtain ⟨n, hn, rfl⟩ := h
    exact .inl ⟨n, rfl, index_var_eq_ok.2 hn⟩
  | int m => exact .inl ⟨m, Option.some.inj h, rfl⟩
  | binary op l r ihl ihr =>
    obtain ⟨x, y, hx, hy, hz⟩ := wide?_binary_eq_some.1 h
    rcases ihl hx with ⟨m, rfl, hm⟩ | hl
    · rcases ihr hy with ⟨k, rfl, hk⟩ | hr
      · exact index_of_onInts? hm hk hz
      · exact .inr (by simp [hm, hr, Bind.bind, Except.bind])
    · exact .inr (by simp [hl, Bind.bind, Except.bind])
  | neg e ih =>
    obtain ⟨x, hx, rfl⟩ := wide?_neg_eq_some.1 h
    rcases ih hx with ⟨m, rfl, hm⟩ | he
    · cases hn : Word.neg? m with
      | none => exact .inr (by simp [hm, hn, noOverflow, Bind.bind, Except.bind])
      | some n =>
        refine .inl ⟨n, Word.neg?_eq_some.1 hn, ?_⟩
        simp [hm, hn, noOverflow, Bind.bind, Except.bind]
    · exact .inr (by simp [he, Bind.bind, Except.bind])
  | float x | read b idx => simp at h

/-- The integer that a name stands for, 0 if it is no index. -/
def valuation (env : Env) (name : String) : Int := ((env.value? name).map (·.toInt)).getD 0

theorem valuation_of_value? (h : env.value? x = some n) : env.valuation x = n.toInt := by
  simp [valuation, h]

end Env

/-! ## Evaluation depends only on the variables read -/

namespace Expr

attribute [local simp] vars collect

@[simp] theorem vars_var (v : String) : (var v).vars = [v] := by simp

@[simp] theorem vars_int (n : Word) : (int n).vars = [] := by simp

@[simp] theorem vars_binary (op : Op) (l r : Expr) : (binary op l r).vars = l.vars ++ r.vars := by
  simp

@[simp] theorem vars_neg (e : Expr) : (neg e).vars = e.vars := by simp

theorem collectAll_eq_flatMap {β : Type} (f : Expr → List β) (es : List Expr) :
    collectAll f es = es.flatMap (·.collect f) := by
  induction es with
  | nil => rfl
  | cons e es ih => rw [collectAll, ih, List.flatMap_cons]

/-- Whatever is collected from an expression is found at a sub-expression. -/
theorem collect_eq_flatMap {β : Type} (f : Expr → List β) (e : Expr) :
    e.collect f = (e.collect ([·])).flatMap f := by
  induction e with
  | var v | int n | float y => simp [collect]
  | read b idx ih =>
    simp [collect, collectAll_eq_flatMap, List.flatMap_assoc, List.flatMap_congr ih]
  | binary op l r ihl ihr => simp [collect, ihl, ihr]
  | neg e ih => simp [collect, ih]

theorem vars_read (b : String) (idx : List Expr) : (read b idx).vars = idx.flatMap (·.vars) := by
  rw [vars, collect, List.nil_append, collectAll_eq_flatMap]
  rfl

theorem rebuildAll_eq_map (onVar : String → Expr) (onRead : String → List Expr → Expr)
    (es : List Expr) : rebuildAll onVar onRead es = es.map (·.rebuild onVar onRead) := by
  induction es with
  | nil => rfl
  | cons e es ih => rw [rebuildAll, ih, List.map_cons]

/-- Where all variables stay so does the expression. -/
theorem rebuild_eq_self {onVar : String → Expr} {e : Expr} (h : ∀ v ∈ e.vars, onVar v = var v) :
    e.rebuild onVar read = e := by
  induction e with
  | var v => exact h v (by simp)
  | int n | float x => rfl
  | read b idx ih =>
    rw [vars_read] at h
    rw [rebuild, rebuildAll_eq_map, List.map_congr_left fun e he =>
      ih e he fun v hv => h v (List.mem_flatMap.2 ⟨e, he, hv⟩), List.map_id']
  | binary op l r ihl ihr =>
    rw [vars_binary, List.forall_mem_append] at h
    rw [rebuild, ihl h.1, ihr h.2]
  | neg e ih => rw [rebuild, ih (by simpa using h)]

end Expr

namespace Env

variable {env env' : Env} {e : Expr}

/-- Evaluation is strict: all variables of an expression with a value stand for indices. -/
theorem value?_isSome_of_wide? {z : Int} (h : env.wide? e = some z) :
    ∀ v ∈ e.vars, (env.value? v).isSome := by
  induction e generalizing z with
  | var v =>
    simp only [wide?, Option.map_eq_some_iff] at h
    obtain ⟨n, hn, -⟩ := h
    simp [hn]
  | int m => simp
  | binary op l r ihl ihr =>
    obtain ⟨x, y, hx, hy, -⟩ := wide?_binary_eq_some.1 h
    intro v hv
    rcases List.mem_append.1 (by simpa using hv) with hv | hv
    · exact ihl hx v hv
    · exact ihr hy v hv
  | neg e ih =>
    obtain ⟨x, hx, -⟩ := wide?_neg_eq_some.1 h
    simpa using ih hx
  | float x | read b idx => simp [wide?] at h

variable (h : ∀ v ∈ e.vars, env.value? v = env'.value? v)
include h

theorem wide?_congr : env.wide? e = env'.wide? e := by
  induction e with
  | var v => simp [wide?, h v (by simp)]
  | int m => rfl
  | binary op l r ihl ihr =>
    simp only [wide?]
    rw [ihl fun v hv => h v (by simp [hv]), ihr fun v hv => h v (by simp [hv])]
  | neg e ih =>
    simp only [wide?]
    rw [ih fun v hv => h v (by simpa using hv)]
  | float x | read b idx => rfl

/-- The value of an index expression depends on the values of its variables alone. -/
theorem index_congr {n : Word} (hn : env.index e = .ok n) : env'.index e = .ok n := by
  induction e generalizing n with
  | var v => exact index_var_eq_ok.2 ((h v (by simp)) ▸ index_var_eq_ok.1 hn)
  | int m => exact hn
  | binary op l r ihl ihr =>
    have hl := fun m => ihl (fun v hv => h v (by simp [hv])) (n := m)
    have hr := fun m => ihr (fun v hv => h v (by simp [hv])) (n := m)
    simp only [index, except_bind_eq_ok] at hn ⊢
    obtain ⟨x, hx, y, hy, hn⟩ := hn
    exact ⟨x, hl x hx, y, hr y hy, hn⟩
  | neg e ih =>
    have he := fun m => ih (fun v hv => h v (by simpa using hv)) (n := m)
    simp only [index, except_bind_eq_ok] at hn ⊢
    obtain ⟨x, hx, hn⟩ := hn
    exact ⟨x, he x hx, hn⟩
  | float x | read b idx => simp [index, failWith] at hn

theorem toOption_index_congr : (env.index e).toOption = (env'.index e).toOption := by
  cases hn : env.index e with
  | ok n => rw [index_congr h hn]
  | error f =>
    cases hn' : env'.index e with
    | ok n => simp [index_congr (fun v hv => (h v hv).symm) hn'] at hn
    | error f' => rfl

end Env

/-! ## Evaluators -/

/-- A way to evaluate index expressions that is defined at least where machine evaluation is, gives
nothing but unbounded values, and looks only at the variables of the expression. -/
structure Evaluator where
  eval : Env → Expr → Option Word
  of_index : ∀ {env : Env} {e : Expr} {n : Word}, env.index e = .ok n → eval env e = some n
  to_wide : ∀ {env : Env} {e : Expr} {n : Word}, eval env e = some n → env.wide? e = some n.toInt
  congr : ∀ {env env' : Env} {e : Expr}, (∀ v ∈ e.vars, env.value? v = env'.value? v) →
    eval env e = eval env' e

namespace Evaluator

/-- Machine evaluation. -/
def checked : Evaluator where
  eval env e := (env.index e).toOption
  of_index h := by simp [h, Except.toOption]
  to_wide {env e n} h := by
    cases hn : env.index e with
    | ok m =>
      simp only [hn, Except.toOption, Option.some.injEq] at h
      subst h
      exact Env.wide?_of_index hn
    | error f => simp [hn, Except.toOption] at h
  congr := Env.toOption_index_congr

/-- Evaluation over the integers to a value that is a word. -/
def wide : Evaluator where
  eval env e := (env.wide? e).bind Word.ofInt?
  of_index h := by simp [Env.wide?_of_index h]
  to_wide h := by
    obtain ⟨z, hz, hn⟩ := Option.bind_eq_some_iff.1 h
    rw [Word.ofInt?_eq_some.1 hn, hz]
  congr h := by rw [Env.wide?_congr h]

variable {env : Env} {e : Expr} {n : Word}

theorem checked_eval : checked.eval env e = some n ↔ env.index e = .ok n := by
  simp only [checked]
  cases env.index e <;> simp [Except.toOption]

theorem wide_eval : wide.eval env e = some n ↔ env.wide? e = some n.toInt := by
  refine ⟨wide.to_wide, fun h => ?_⟩
  simp [wide, h]

variable (ev : Evaluator)

/-- Variables of an expression that can be evaluated stand for indices. -/
theorem value?_isSome (h : ev.eval env e = some n) : ∀ v ∈ e.vars, (env.value? v).isSome :=
  Env.value?_isSome_of_wide? (ev.to_wide h)

end Evaluator

end LoopNest
