import LoopNest.Eval.Exec
import LoopNest.Proofs.IndexValue

/-!
# Traces: runs as lists of actions

Loop bounds, guards, addresses and shapes never look at the elements of a buffer. What a successful
run does is therefore fixed by the environment and by the *layout* of the store, which is everything
about the tensors but their elements: it is a list of actions, each of which stores a value computed
from resolved reads, allocates a tensor, or gives tensors back.

`Stmt.trace` computes that list without touching any element, for any way to evaluate index
expressions. `perform` carries a list of actions out. Rewrites of kernels are then compared through
the lists they unroll to.
-/

namespace LoopNest

open Stmt

variable {v : View} {e : Expr} {body : Block}

/-- All views are of tensors before the number `n`. -/
abbrev Env.ViewsBelow (env : Env) (n : Nat) : Prop :=
  ∀ x v, env.view? x = some v → v.tensor < n

/-! ## Actions -/

/-- An element of a store: the number of its tensor and the offset in it. -/
abbrev Place := Nat × Nat

/-- A data expression whose reads are resolved to places. -/
inductive Term where
  | word (n : Word)
  | float (x : Float)
  | load (p : Place)
  | binary (op : Op) (left right : Term)
  | neg (operand : Term)

inductive Action where
  | store (update : Update) (place : Place) (value : Term)
  | alloc (ty : Scalar) (shape : List Nat) (size : Nat)
  /-- Give back all tensors from the number `mark` on. -/
  | release (mark : Nat)

/-- What is fixed about a tensor: all but its elements. -/
structure Slot where
  ty : Scalar
  shape : List Nat
  size : Nat

/-- What is fixed about a store. -/
abbrev Layout := List Slot

section perform

variable {α : Type}

def Tensor.slot (t : Tensor α) : Slot := ⟨t.ty, t.shape, t.data.size⟩

namespace Store

def layout (st : Store α) : Layout := st.map Tensor.slot

/-- The element at a place. -/
def at? (st : Store α) (p : Place) : Option α := (st[p.1]?).bind (·.data[p.2]?)

theorem length_layout (st : Store α) : st.layout.length = st.length := by simp [layout]

end Store

variable [Element α]

/-- The value of a resolved data expression. -/
def Term.eval (st : Store α) : Term → α
  | word n => Element.ofWord n
  | float x => Element.ofFloat x
  | load p => (st.at? p).getD Element.undefined
  | binary op l r =>
    match op with
    | .add => Element.add (l.eval st) (r.eval st)
    | .sub => Element.sub (l.eval st) (r.eval st)
    | .mul => Element.mul (l.eval st) (r.eval st)
    | .div => Element.div (l.eval st) (r.eval st)
    | .mod => Element.mod (l.eval st) (r.eval st)
    | _ => Element.undefined
  | neg t => Element.neg (t.eval st)

/-- Carry out one action. -/
def Action.perform (st : Store α) : Action → Store α
  | store .set p t => st.modifyAt p fun _ => t.eval st
  | store .add p t => st.modifyAt p fun old => Element.add old (t.eval st)
  | alloc ty shape size => st ++ [⟨ty, shape, Array.replicate size Element.undefined⟩]
  | release mark => st.take mark

/-- Carry out actions in order. -/
def perform (acts : List Action) (st : Store α) : Store α := acts.foldl Action.perform st

@[simp] theorem perform_nil (st : Store α) : perform [] st = st := rfl

@[simp] theorem perform_cons (a : Action) (acts : List Action) (st : Store α) :
    perform (a :: acts) st = perform acts (a.perform st) := rfl

@[simp] theorem perform_append (acts acts' : List Action) (st : Store α) :
    perform (acts ++ acts') st = perform acts' (perform acts st) := by
  simp [perform]

end perform

/-! ## Layouts -/

/-- What one action does to the layout. -/
def Action.relayout (lay : Layout) : Action → Layout
  | store _ _ _ => lay
  | alloc ty shape size => lay ++ [⟨ty, shape, size⟩]
  | release mark => lay.take mark

/-- The layout after actions. -/
def Layout.after (lay : Layout) (acts : List Action) : Layout := acts.foldl Action.relayout lay

@[simp] theorem Layout.after_nil (lay : Layout) : lay.after [] = lay := rfl

@[simp] theorem Layout.after_cons (lay : Layout) (a : Action) (acts : List Action) :
    lay.after (a :: acts) = Layout.after (a.relayout lay) acts := rfl

@[simp] theorem Layout.after_append (lay : Layout) (acts acts' : List Action) :
    lay.after (acts ++ acts') = (lay.after acts).after acts' := by
  simp [Layout.after]

section layout

variable {α : Type} [Element α]

theorem Store.layout_modifyAt (st : Store α) (p : Place) (f : α → α) :
    (st.modifyAt p f).layout = st.layout := by
  apply List.ext_getElem?
  intro i
  simp only [layout, modifyAt, List.getElem?_map, List.getElem?_modify]
  split
  · cases st[i]? <;> simp [Tensor.slot, Tensor.modify]
  · simp

theorem layout_performAction (a : Action) (st : Store α) :
    Store.layout (a.perform st) = a.relayout st.layout := by
  cases a with
  | store u p t => cases u <;> exact st.layout_modifyAt p _
  | alloc ty shape size =>
    simp [Action.perform, Action.relayout, Store.layout, Tensor.slot]
  | release mark => simp [Action.perform, Action.relayout, Store.layout]

theorem layout_perform (acts : List Action) (st : Store α) :
    Store.layout (perform acts st) = st.layout.after acts := by
  induction acts generalizing st with
  | nil => rfl
  | cons a acts ih => rw [perform_cons, ih, layout_performAction, Layout.after_cons]

end layout

/-! ## Resolving what a statement says -/

/-- A dimension of a window with its bounds evaluated. -/
inductive Cut where
  | point (p : Word)
  | range (lo hi : Word)

namespace View

/-- Narrow the dimensions of a view. -/
def cutDims : List ViewDim → List Cut → Option (List ViewDim)
  | [], [] => some []
  | .fixed c :: dims, cuts => do return .fixed c :: (← cutDims dims cuts)
  | .free offset extent :: dims, .point p :: cuts =>
    if p < 0 ∨ extent ≤ p then none
    else do return .fixed (← Word.add? offset p) :: (← cutDims dims cuts)
  | .free offset extent :: dims, .range lo hi :: cuts =>
    if lo < 0 ∨ extent < hi ∨ hi < lo then none
    else do return .free (← Word.add? offset lo) (← Word.sub? hi lo) :: (← cutDims dims cuts)
  | _, _ => none

/-- The place of an index into a view. -/
def place? (v : View) (lay : Layout) (index : List Word) : Option Place := do
  let coordinates ← (v.coordinates index).toOption
  let slot ← lay[v.tensor]?
  return (v.tensor, ← Tensor.offsetFrom? 0 slot.shape coordinates)

end View

/-- The value of a comparison. -/
def Op.compare? : Op → Word → Word → Option Bool
  | lt, x, y => some (x < y)
  | le, x, y => some (x ≤ y)
  | gt, x, y => some (y < x)
  | ge, x, y => some (y ≤ x)
  | eq, x, y => some (x = y)
  | _, _, _ => none

namespace Evaluator

variable (ev : Evaluator)

def indices (env : Env) (es : List Expr) : Option (List Word) := es.mapM (ev.eval env)

def condition (env : Env) : Expr → Option Bool
  | .binary .and l r => do if ← condition env l then condition env r else return false
  | .binary op l r => do op.compare? (← ev.eval env l) (← ev.eval env r)
  | _ => none

def extents (env : Env) (es : List Expr) : Option (List Nat) :=
  es.mapM fun e => do
    let n ← ev.eval env e
    if n < 0 then none else return n.toInt.toNat

def cut (env : Env) : WindowDim → Option Cut
  | .point e => do return .point (← ev.eval env e)
  | .interval lo hi => do return .range (← ev.eval env lo) (← ev.eval env hi)

def cuts (env : Env) (ds : List WindowDim) : Option (List Cut) := ds.mapM (ev.cut env)

def window (env : Env) (w : Window) : Option View := do
  let v ← env.view? w.buf
  let cuts ← ev.cuts env w.dims
  return { v with dims := ← View.cutDims v.dims cuts }

def enter (env : Env) : (inner : Env) → List (Param × Window) → Option Env
  | inner, [] => some inner
  | inner, (p, w) :: rest => do
    let v ← ev.window env w
    enter env (inner.bind p.name (.buffer v)) rest

def place (env : Env) (lay : Layout) (buf : String) (idx : List Expr) : Option Place := do
  let v ← env.view? buf
  v.place? lay (← ev.indices env idx)

/-- Reads have to hit an element that is there. -/
def load (env : Env) (lay : Layout) (buf : String) (idx : List Expr) : Option Place := do
  let p ← ev.place env lay buf idx
  let slot ← lay[p.1]?
  if p.2 < slot.size then return p else none

def term (env : Env) (lay : Layout) : Expr → Option Term
  | .var v => (env.value? v).map .word
  | .int n => some (.word n)
  | .float x => some (.float x)
  | .read b idx => (ev.load env lay b idx).map .load
  | .binary op l r => do
    let t ← term env lay l
    let u ← term env lay r
    if op.isArithmetic then return .binary op t u else none
  | .neg e => (term env lay e).map .neg

end Evaluator

/-! What is resolved, one statement for each way to come to it. -/

theorem exists_of_forall₂ {α β : Type} {R : α → β → Prop} {as : List α} {bs : List β}
    (h : List.Forall₂ R as bs) {b : β} (hb : b ∈ bs) : ∃ a ∈ as, R a b := by
  induction h with
  | nil => cases hb
  | @cons a c as bs hac hrest ih =>
    obtain rfl | hb := List.mem_cons.1 hb
    · exact ⟨a, .head _, hac⟩
    · obtain ⟨a', ha', hR⟩ := ih hb
      exact ⟨a', .tail _ ha', hR⟩

theorem Word.not_outside {i extent : Word} :
    ¬(i < 0 ∨ extent ≤ i) ↔ 0 ≤ i.toInt ∧ i.toInt < extent.toInt := by
  simp only [Int64.lt_iff_toInt_lt, Int64.le_iff_toInt_le, Int64.toInt_zero]
  omega

theorem Word.not_outside_range {lo hi extent : Word} : ¬(lo < 0 ∨ extent < hi ∨ hi < lo) ↔
    0 ≤ lo.toInt ∧ lo.toInt ≤ hi.toInt ∧ hi.toInt ≤ extent.toInt := by
  simp only [Int64.lt_iff_toInt_lt, Int64.toInt_zero]
  omega

namespace View

/-- The index leads to the coordinates, dimension by dimension. -/
inductive Finds : List ViewDim → (index cs : List Word) → Prop
  | nil : Finds [] [] []
  | fixed (c : Word) {dims : List ViewDim} {index cs : List Word} :
    Finds dims index cs → Finds (.fixed c :: dims) index (c :: cs)
  | free {offset extent i c : Word} {dims : List ViewDim} {index cs : List Word} : 0 ≤ i.toInt →
    i.toInt < extent.toInt → c.toInt = offset.toInt + i.toInt → Finds dims index cs →
    Finds (.free offset extent :: dims) (i :: index) (c :: cs)

theorem Finds.length_eq {index cs : List Word} (h : Finds v.dims index cs) :
    index.length = v.rank := by
  unfold rank
  generalize v.dims = dims at h ⊢
  induction h with
  | nil => rfl
  | fixed c _ ih => exact ih
  | free _ _ _ _ ih => exact congrArg (· + 1) ih

theorem coordinates_eq_ok {index cs : List Word} :
    v.coordinates index = .ok cs ↔ Finds v.dims index cs := by
  rw [coordinates]
  generalize EvalError.outside v.name index = outside
  constructor
  · intro h
    split at h
    · cases h
    next hlen =>
    rw [ne_eq, not_not, rank] at hlen
    generalize v.dims = dims at h hlen ⊢
    fun_induction coordinatesFrom outside dims index generalizing cs with
    | case1 index =>
      cases h
      obtain rfl := List.length_eq_zero_iff.1 hlen
      exact .nil
    | case2 c dims index ih =>
      obtain ⟨rest, hrest, h⟩ := except_bind_eq_ok.1 h
      cases h
      exact .fixed c (ih hrest hlen)
    | case3 | case4 => cases h
    | case5 offset extent dims i index hin ih =>
      simp only [except_bind_eq_ok, noOverflow_eq_ok, Word.add?_eq_some] at h
      obtain ⟨c, hc, rest, hrest, h⟩ := h
      cases h
      obtain ⟨hlo, hhi⟩ := Word.not_outside.1 hin
      exact .free hlo hhi hc (ih hrest (Nat.succ.inj hlen))
  · intro h
    rw [if_neg (not_not.2 h.length_eq)]
    generalize v.dims = dims at h ⊢
    induction h with
    | nil => rfl
    | fixed c _ ih =>
      rw [coordinatesFrom, ih]
      rfl
    | free hlo hhi hc _ ih =>
      rw [coordinatesFrom, if_neg (Word.not_outside.2 ⟨hlo, hhi⟩), Word.add?_eq_some.2 hc, ih]
      rfl

theorem place?_eq_some {lay : Layout} {index : List Word} {p : Place} :
    v.place? lay index = some p ↔ ∃ cs s, Finds v.dims index cs ∧ lay[v.tensor]? = some s ∧
      Tensor.offsetFrom? 0 s.shape cs = some p.2 ∧ p.1 = v.tensor := by
  simp only [place?, option_bind_eq_some, ← coordinates_eq_ok]
  constructor
  · rintro ⟨cs, hcs, s, hs, o, ho, h⟩
    cases h
    refine ⟨cs, s, ?_, hs, ho, rfl⟩
    cases hv : v.coordinates index <;> simp_all [Except.toOption]
  · rintro ⟨cs, s, hcs, hs, ho, hp⟩
    exact ⟨cs, by simp [hcs, Except.toOption], s, hs, p.2, ho, by rw [← hp]; rfl⟩

/-- What the cuts leave, dimension by dimension. -/
inductive Narrows : List ViewDim → List Cut → List ViewDim → Prop
  | nil : Narrows [] [] []
  | fixed (c : Word) {dims dims' : List ViewDim} {cuts : List Cut} :
    Narrows dims cuts dims' → Narrows (.fixed c :: dims) cuts (.fixed c :: dims')
  | point {offset extent p c : Word} {dims dims' : List ViewDim} {cuts : List Cut} :
    0 ≤ p.toInt → p.toInt < extent.toInt → c.toInt = offset.toInt + p.toInt →
    Narrows dims cuts dims' →
    Narrows (.free offset extent :: dims) (.point p :: cuts) (.fixed c :: dims')
  | range {offset extent lo hi start count : Word} {dims dims' : List ViewDim} {cuts : List Cut} :
    0 ≤ lo.toInt → lo.toInt ≤ hi.toInt → hi.toInt ≤ extent.toInt →
    start.toInt = offset.toInt + lo.toInt → count.toInt = hi.toInt - lo.toInt →
    Narrows dims cuts dims' →
    Narrows (.free offset extent :: dims) (.range lo hi :: cuts) (.free start count :: dims')

theorem cutDims_eq_some {dims dims' : List ViewDim} {cuts : List Cut} :
    cutDims dims cuts = some dims' ↔ Narrows dims cuts dims' := by
  constructor
  · intro h
    fun_induction cutDims dims cuts generalizing dims' with
    | case1 =>
      cases h
      exact .nil
    | case2 c dims cuts ih =>
      obtain ⟨rest, hrest, h⟩ := Option.bind_eq_some_iff.1 h
      cases h
      exact .fixed c (ih hrest)
    | case4 offset extent dims p cuts hin ih =>
      simp only [option_bind_eq_some, Word.add?_eq_some] at h
      obtain ⟨c, hc, rest, hrest, h⟩ := h
      cases h
      obtain ⟨hlo, hhi⟩ := Word.not_outside.1 hin
      exact .point hlo hhi hc (ih hrest)
    | case6 offset extent dims lo hi cuts hin ih =>
      simp only [option_bind_eq_some, Word.add?_eq_some, Word.sub?_eq_some] at h
      obtain ⟨start, hstart, count, hcount, rest, hrest, h⟩ := h
      cases h
      obtain ⟨hlo, hle, hhi⟩ := Word.not_outside_range.1 hin
      exact .range hlo hle hhi hstart hcount (ih hrest)
    | case3 | case5 | case7 => cases h
  · intro h
    induction h with
    | nil => rfl
    | fixed c _ ih =>
      rw [cutDims, ih]
      rfl
    | point hlo hhi hc _ ih =>
      rw [cutDims, if_neg (Word.not_outside.2 ⟨hlo, hhi⟩), Word.add?_eq_some.2 hc, ih]
      rfl
    | range hlo hle hhi hstart hcount _ ih =>
      rw [cutDims, if_neg (Word.not_outside_range.2 ⟨hlo, hle, hhi⟩), Word.add?_eq_some.2 hstart,
        Word.sub?_eq_some.2 hcount, ih]
      rfl

end View

namespace Evaluator

variable {ev : Evaluator} {env : Env} {lay : Layout} {buf : String} {idx : List Expr} {p : Place}
  {t : Term}

theorem indices_eq_some {ns : List Word} :
    ev.indices env idx = some ns ↔ List.Forall₂ (fun e n => ev.eval env e = some n) idx ns :=
  mapM_eq_some

theorem extents_eq_some {es : List Expr} {shape : List Nat} : ev.extents env es = some shape ↔
    List.Forall₂ (fun e m => ∃ n, ev.eval env e = some n ∧ ¬n < 0 ∧ n.toInt.toNat = m) es shape := by
  simp only [extents, mapM_eq_some, option_bind_eq_some,
    Option.ite_none_left_eq_some, Option.pure_def, Option.some.injEq]

theorem cuts_eq_some {ds : List WindowDim} {cuts : List Cut} :
    ev.cuts env ds = some cuts ↔ List.Forall₂ (fun d cut => ev.cut env d = some cut) ds cuts :=
  mapM_eq_some

theorem cut_point {c : Cut} :
    ev.cut env (.point e) = some c ↔ ∃ n, ev.eval env e = some n ∧ .point n = c := by
  simp only [cut, option_bind_eq_some, Option.pure_def, Option.some.injEq]

theorem cut_interval {lo hi : Expr} {c : Cut} : ev.cut env (.interval lo hi) = some c ↔
    ∃ l u, ev.eval env lo = some l ∧ ev.eval env hi = some u ∧ .range l u = c := by
  simp only [cut, option_bind_eq_some, Option.pure_def, Option.some.injEq, exists_and_left]

theorem window_eq_some {w : Window} : ev.window env w = some v ↔
    ∃ base cuts dims, env.view? w.buf = some base ∧ ev.cuts env w.dims = some cuts ∧
      View.Narrows base.dims cuts dims ∧ v = { base with dims } := by
  simp only [window, option_bind_eq_some, View.cutDims_eq_some,
    Option.pure_def, Option.some.injEq, eq_comm (a := v), exists_and_left]

theorem place_eq_some : ev.place env lay buf idx = some p ↔ ∃ v ns, env.view? buf = some v ∧
    ev.indices env idx = some ns ∧ v.place? lay ns = some p := by
  simp only [place, option_bind_eq_some, exists_and_left]

theorem view_of_place (h : ev.place env lay buf idx = some p) :
    (∃ v, env.view? buf = some v ∧ v.tensor = p.1) ∧ p.1 < lay.length := by
  obtain ⟨v, ns, hv, -, h⟩ := place_eq_some.1 h
  obtain ⟨cs, s, -, hs, -, hp⟩ := View.place?_eq_some.1 h
  exact ⟨⟨v, hv, hp.symm⟩, hp ▸ (List.getElem?_eq_some_iff.1 hs).1⟩

theorem load_eq_some : ev.load env lay buf idx = some p ↔
    ev.place env lay buf idx = some p ∧ ∃ s, lay[p.1]? = some s ∧ p.2 < s.size := by
  simp only [load, option_bind_eq_some, Option.ite_none_right_eq_some]
  constructor
  · rintro ⟨q, hq, s, hs, hlt, h⟩
    cases h
    exact ⟨hq, s, hs, hlt⟩
  · rintro ⟨hq, s, hs, hlt⟩
    exact ⟨p, hq, s, hs, hlt, rfl⟩

theorem term_var {x : String} :
    ev.term env lay (.var x) = some t ↔ ∃ n, env.value? x = some n ∧ .word n = t :=
  Option.map_eq_some_iff

theorem term_read :
    ev.term env lay (.read buf idx) = some t ↔ ∃ p, ev.load env lay buf idx = some p ∧ .load p = t :=
  Option.map_eq_some_iff

theorem term_binary {op : Op} {l r : Expr} : ev.term env lay (.binary op l r) = some t ↔
    op.isArithmetic = true ∧ ∃ u v, ev.term env lay l = some u ∧ ev.term env lay r = some v ∧
      .binary op u v = t := by
  simp only [term, option_bind_eq_some, Option.ite_none_right_eq_some]
  constructor
  · rintro ⟨u, hu, v, hv, hop, h⟩
    exact ⟨hop, u, v, hu, hv, Option.some.inj h⟩
  · rintro ⟨hop, u, v, hu, hv, rfl⟩
    exact ⟨u, hu, v, hv, hop, rfl⟩

theorem term_neg :
    ev.term env lay (.neg e) = some t ↔ ∃ u, ev.term env lay e = some u ∧ .neg u = t :=
  Option.map_eq_some_iff

end Evaluator

/-! ## Traces -/

/-- The actions of a scope: what is allocated inside is given back at the end. -/
def scope (lay : Layout) (acts : List Action) : List Action := acts ++ [.release lay.length]

/-- The actions of `n` rounds from `k` on. -/
def traceRounds (round : Nat → Option (List Action)) : (n k : Nat) → Option (List Action)
  | 0, _ => some []
  | n + 1, k => do
    let acts ← round k
    return acts ++ (← traceRounds round n (k + 1))

/-- How the body of a template unrolls. -/
abbrev Callee := Env → Layout → Block → Option (List Action)

mutual

/-- The actions of a statement and the environment after it; `none` if it does not succeed. -/
def Stmt.trace (ev : Evaluator) (c : Catalog) (callee : Callee) (env : Env) (lay : Layout) :
    Stmt → Option (List Action × Env)
  | .loop h body => do
    let n ← ev.eval env h.bound
    let acts ← traceRounds (fun k =>
      (traceAll ev c callee (env.bind h.var (.index (Int64.ofNat k))) lay body).map
        (scope lay ·.1)) n.toInt.toNat 0
    return (acts, env)
  | .guard e body => do
    if ← ev.condition env e then
      let (acts, _) ← traceAll ev c callee env lay body
      return (scope lay acts, env)
    else return ([], env)
  | .store u b idx rhs => do
    let t ← ev.term env lay rhs
    let p ← ev.place env lay b idx
    return ([.store u p t], env)
  | .alloc d => do
    let shape ← ev.extents env d.shape
    let size ← Tensor.size? shape
    return ([.alloc d.ty shape size], env.bind d.name (.buffer (.whole lay.length d.name shape)))
  | .call name args => do
    let t ← c.find? name
    if t.params.length ≠ args.length then none
    else
      let inner ← ev.enter env [] (t.params.zip args)
      return (← callee inner lay t.body, env)

/-- The actions of statements in order, and the environment after them. -/
def Stmt.traceAll (ev : Evaluator) (c : Catalog) (callee : Callee) (env : Env) (lay : Layout) :
    List Stmt → Option (List Action × Env)
  | [] => some ([], env)
  | s :: rest => do
    let (acts, env) ← s.trace ev c callee env lay
    let (acts', env) ← traceAll ev c callee env (lay.after acts) rest
    return (acts ++ acts', env)

end

/-- The actions of a block in which calls are nested at most `depth` deep. In the bodies of templates
index expressions are evaluated by the machine. -/
def Block.trace (c : Catalog) : (depth : Nat) → Evaluator → Callee
  | 0, ev, env, lay, b =>
    (traceAll ev c (fun _ _ _ => none) env lay b).map (scope lay ·.1)
  | depth + 1, ev, env, lay, b =>
    (traceAll ev c (Block.trace c depth .checked) env lay b).map (scope lay ·.1)

/-- The environment of the given round of a loop. -/
abbrev Env.turn (env : Env) (h : Header) (k : Nat) : Env := env.bind h.var (.index (Int64.ofNat k))

/-! ## Inversion

What a trace looks like, one statement for each constructor. -/

theorem traceRounds_eq_some {round : Nat → Option (List Action)} {n k : Nat} {acts : List Action} :
    traceRounds round n k = some acts ↔
      ∃ g : Nat → List Action, (∀ j, k ≤ j → j < k + n → round j = some (g j)) ∧
        acts = (List.range' k n).flatMap g := by
  induction n generalizing k acts with
  | zero =>
    simp only [traceRounds, Option.some.injEq, List.range'_zero, List.flatMap_nil]
    constructor
    · rintro rfl
      exact ⟨fun _ => [], fun j h1 h2 => by omega, rfl⟩
    · rintro ⟨-, -, rfl⟩
      rfl
  | succ n ih =>
    simp only [traceRounds, option_bind_eq_some, Option.pure_def,
      Option.some.injEq, ih, List.range'_succ, List.flatMap_cons]
    constructor
    · rintro ⟨a, ha, rest, ⟨g, hg, rfl⟩, rfl⟩
      -- the rounds after the first keep their actions
      refine ⟨fun j => if j = k then a else g j, fun j h1 h2 => ?_, ?_⟩
      · by_cases hj : j = k
        · simp [hj, ha]
        · simp only [hj, if_false]
          exact hg j (by omega) (by omega)
      · simp only [if_true]
        congr 1
        apply List.flatMap_congr
        intro j hj
        have := (List.mem_range'_1.1 hj).1
        rw [if_neg (by omega)]
    · rintro ⟨g, hg, rfl⟩
      exact ⟨g k, hg k (by omega) (by omega), _,
        ⟨g, fun j h1 h2 => hg j (by omega) (by omega), rfl⟩, rfl⟩

section inversion

variable {ev : Evaluator} {c : Catalog} {callee : Callee} {env : Env} {lay : Layout}
  {r : List Action × Env}

/-- A loop unrolls to its rounds. All start from the same layout. -/
theorem Stmt.trace_loop {h : Header} :
    (Stmt.loop h body).trace ev c callee env lay = some r ↔
      ∃ (n : Word) (g : Nat → List Action), ev.eval env h.bound = some n ∧
        (∀ k < n.toInt.toNat, ∃ env', traceAll ev c callee
          (env.turn h k) lay body = some (g k, env')) ∧
        r = ((List.range n.toInt.toNat).flatMap fun k => scope lay (g k), env) := by
  simp only [Stmt.trace, option_bind_eq_some, Option.pure_def,
    Option.some.injEq, traceRounds_eq_some, Option.map_eq_some_iff, Nat.zero_le, Nat.zero_add,
    forall_const, ← List.range_eq_range']
  constructor
  · rintro ⟨n, hn, acts, ⟨g, hg, rfl⟩, rfl⟩
    have hbody : ∀ k < n.toInt.toNat, ∃ t : List Action,
        (∃ env', traceAll ev c callee (env.turn h k) lay body
          = some (t, env')) ∧ scope lay t = g k := by
      intro k hk
      obtain ⟨⟨t, env'⟩, ht, hs⟩ := hg k hk
      exact ⟨t, ⟨env', ht⟩, hs⟩
    choose! t ht using hbody
    refine ⟨n, t, hn, fun k hk => (ht k hk).1, ?_⟩
    congr 1
    apply List.flatMap_congr
    intro k hk
    exact ((ht k (List.mem_range.1 hk)).2).symm
  · rintro ⟨n, g, hn, hg, rfl⟩
    refine ⟨n, hn, _, ⟨fun k => scope lay (g k), fun k hk => ?_, rfl⟩, rfl⟩
    obtain ⟨env', h⟩ := hg k hk
    exact ⟨_, h, rfl⟩

theorem Stmt.trace_guard :
    (Stmt.guard e body).trace ev c callee env lay = some r ↔
      (ev.condition env e = some false ∧ r = ([], env)) ∨
        (ev.condition env e = some true ∧ ∃ acts env',
          traceAll ev c callee env lay body = some (acts, env') ∧ r = (scope lay acts, env)) := by
  simp only [Stmt.trace, Option.bind_eq_bind, Option.bind_eq_some_iff, Option.pure_def]
  constructor
  · rintro ⟨t, ht, h⟩
    cases t with
    | false => exact .inl ⟨ht, by simpa using h.symm⟩
    | true =>
      simp only [if_true, Option.bind_eq_some_iff, Option.some.injEq] at h
      obtain ⟨⟨acts, env'⟩, h, rfl⟩ := h
      exact .inr ⟨ht, acts, env', h, rfl⟩
  · rintro (⟨ht, rfl⟩ | ⟨ht, acts, env', h, rfl⟩)
    · exact ⟨false, ht, by simp⟩
    · exact ⟨true, ht, by simp [h]⟩

theorem Stmt.trace_store {u : Update} {b : String} {idx : List Expr} {rhs : Expr} :
    (Stmt.store u b idx rhs).trace ev c callee env lay = some r ↔
      ∃ t p, ev.term env lay rhs = some t ∧ ev.place env lay b idx = some p ∧
        r = ([.store u p t], env) := by
  simp only [Stmt.trace, option_bind_eq_some, Option.pure_def,
    Option.some.injEq, eq_comm (a := r), exists_and_left]

theorem Stmt.trace_alloc {d : Decl} :
    (Stmt.alloc d).trace ev c callee env lay = some r ↔
      ∃ shape size, ev.extents env d.shape = some shape ∧ Tensor.size? shape = some size ∧
        r = ([.alloc d.ty shape size],
          env.bind d.name (.buffer (.whole lay.length d.name shape))) := by
  simp only [Stmt.trace, option_bind_eq_some, Option.pure_def,
    Option.some.injEq, eq_comm (a := r), exists_and_left]

theorem Stmt.trace_call {name : String} {args : List Window} :
    (Stmt.call name args).trace ev c callee env lay = some r ↔
      ∃ t inner acts, c.find? name = some t ∧ t.params.length = args.length ∧
        ev.enter env [] (t.params.zip args) = some inner ∧ callee inner lay t.body = some acts ∧
        r = (acts, env) := by
  simp only [Stmt.trace, Option.bind_eq_bind, Option.bind_eq_some_iff, Option.pure_def]
  constructor
  · rintro ⟨t, ht, h⟩
    split at h
    · simp at h
    · rename_i hlen
      simp only [Option.bind_eq_some_iff, Option.some.injEq] at h
      obtain ⟨inner, hinner, acts, hacts, rfl⟩ := h
      exact ⟨t, inner, acts, ht, not_not.1 hlen, hinner, hacts, rfl⟩
  · rintro ⟨t, inner, acts, ht, hlen, hinner, hacts, rfl⟩
    exact ⟨t, ht, by simp [hlen, hinner, hacts]⟩

@[simp] theorem Stmt.traceAll_nil : traceAll ev c callee env lay [] = some r ↔ r = ([], env) := by
  simp [traceAll, eq_comm]

theorem Stmt.traceAll_cons {s : Stmt} {rest : Block} :
    traceAll ev c callee env lay (s :: rest) = some r ↔
      ∃ acts env' acts' env'', s.trace ev c callee env lay = some (acts, env') ∧
        traceAll ev c callee env' (lay.after acts) rest = some (acts', env'') ∧
        r = (acts ++ acts', env'') := by
  simp only [traceAll, option_bind_eq_some, Option.pure_def,
    Option.some.injEq, Prod.exists, eq_comm (a := r), exists_and_left]

theorem Stmt.traceAll_append {b b' : Block} :
    traceAll ev c callee env lay (b ++ b') = some r ↔
      ∃ acts env' acts' env'', traceAll ev c callee env lay b = some (acts, env') ∧
        traceAll ev c callee env' (lay.after acts) b' = some (acts', env'') ∧
        r = (acts ++ acts', env'') := by
  induction b generalizing env lay r with
  | nil =>
    simp only [List.nil_append, traceAll_nil]
    constructor
    · intro h
      exact ⟨[], env, r.1, r.2, rfl, h, rfl⟩
    · rintro ⟨acts, env', acts', env'', h, h', rfl⟩
      obtain ⟨rfl, rfl⟩ := Prod.mk.inj h
      exact h'
  | cons s rest ih =>
    rw [List.cons_append, traceAll_cons]
    constructor
    · rintro ⟨a, e, a', e', hs, hrest, rfl⟩
      obtain ⟨x, f, x', f', hx, hx', ⟨⟩⟩ := ih.1 hrest
      exact ⟨a ++ x, f, x', e', traceAll_cons.2 ⟨a, e, x, f, hs, hx, rfl⟩,
        by simpa using hx', by simp⟩
    · rintro ⟨y, e, y', e', hb, hb', rfl⟩
      obtain ⟨a, f, x, f', hs, hx, ⟨⟩⟩ := traceAll_cons.1 hb
      exact ⟨a, f, x ++ y', e', hs, ih.2 ⟨x, e, y', e', hx, by simpa using hb', rfl⟩, by simp⟩

theorem Stmt.traceAll_singleton {s : Stmt} :
    traceAll ev c callee env lay [s] = some r ↔ s.trace ev c callee env lay = some r := by
  rw [traceAll_cons]
  constructor
  · rintro ⟨a, e, a', e', hs, hnil, rfl⟩
    obtain ⟨rfl, rfl⟩ := Prod.mk.inj (traceAll_nil.1 hnil)
    simpa using hs
  · intro h
    exact ⟨r.1, r.2, [], r.2, h, traceAll_nil.2 rfl, by simp⟩

end inversion

end LoopNest
