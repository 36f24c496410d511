import LoopNest.Proofs.Views
import LoopNest.Proofs.Written

/-!
# Calls stay in their windows

The body of a template reaches the tensors of its caller only through the views of the windows, and
narrowing a view again only leaves coordinates out. So an element that no window selects keeps its
value in every call, whether the call ends or fails (`Stmt.call_frame`). That is an invariant of the
body: no name in scope stands for a view of that element.
-/

namespace LoopNest

open Exec Evaluator

variable {cs : List Word} {env : Env} {k : Nat}

/-! ## The elements of a view -/

/-- The coordinates of a dimension. -/
def ViewDim.Admits : ViewDim → Word → Prop
  | .fixed c, i => i = c
  | .free offset extent, i => offset.toInt ≤ i.toInt ∧ i.toInt < offset.toInt + extent.toInt

/-- The element of tensor `k` at the coordinates `cs` belongs to the view. -/
def View.Covers (v : View) (k : Nat) (cs : List Word) : Prop :=
  v.tensor = k ∧ List.Forall₂ ViewDim.Admits v.dims cs

/-- The coordinates that the points and the intervals of a window select, relative to the dimensions
of the view that it is taken from. -/
inductive Env.Selects (env : Env) : List ViewDim → List WindowDim → List Word → Prop
  | nil : Selects env [] [] []
  | fixed {i : Word} {dims ds cs} : Selects env dims ds cs →
    Selects env (.fixed i :: dims) ds (i :: cs)
  | point {offset extent i p : Word} {e dims ds cs} : env.index e = .ok p →
    i.toInt = offset.toInt + p.toInt → Selects env dims ds cs →
    Selects env (.free offset extent :: dims) (.point e :: ds) (i :: cs)
  | interval {offset extent i a b : Word} {lo hi dims ds cs} : env.index lo = .ok a →
    env.index hi = .ok b → offset.toInt + a.toInt ≤ i.toInt → i.toInt < offset.toInt + b.toInt →
    Selects env dims ds cs →
    Selects env (.free offset extent :: dims) (.interval lo hi :: ds) (i :: cs)

/-- An access goes to an element of the view that it uses. -/
theorem View.Finds.admits {dims : List ViewDim} {index : List Word} (h : View.Finds dims index cs) :
    List.Forall₂ ViewDim.Admits dims cs := by
  induction h with
  | nil => exact .nil
  | fixed c _ ih => exact .cons rfl ih
  | free hlo hhi hc _ ih => exact .cons ⟨by omega, by omega⟩ ih

/-- The elements of a window are selected by it, and they are elements of the view that it is taken
from. -/
theorem Env.selects_of_narrows {dims dims' : List ViewDim} {ds : List WindowDim} {cuts : List Cut}
    (hcuts : checked.cuts env ds = some cuts) (h : View.Narrows dims cuts dims')
    (hcs : List.Forall₂ ViewDim.Admits dims' cs) :
    env.Selects dims ds cs ∧ List.Forall₂ ViewDim.Admits dims cs := by
  rw [cuts_eq_some] at hcuts
  induction h generalizing ds cs with
  | nil =>
    cases hcuts
    cases hcs
    exact ⟨.nil, .nil⟩
  | fixed c _ ih =>
    obtain _ | ⟨rfl, hcs⟩ := hcs
    obtain ⟨hsel, hadmits⟩ := ih hcuts hcs
    exact ⟨.fixed hsel, .cons rfl hadmits⟩
  | point hlo hhi hc _ ih =>
    obtain _ | ⟨rfl, hcs⟩ := hcs
    obtain _ | @⟨d, _, ds, _, hcut, hcuts⟩ := hcuts
    obtain ⟨hsel, hadmits⟩ := ih hcuts hcs
    cases d with
    | point e =>
      obtain ⟨p, hp, ⟨⟩⟩ := cut_point.1 hcut
      exact ⟨.point (checked_eval.1 hp) hc hsel, .cons ⟨by omega, by omega⟩ hadmits⟩
    | interval lo hi => obtain ⟨_, _, _, _, ⟨⟩⟩ := cut_interval.1 hcut
  | range hlo hle hhi hstart hcount _ ih =>
    obtain _ | ⟨⟨hlow, hhigh⟩, hcs⟩ := hcs
    obtain _ | @⟨d, _, ds, _, hcut, hcuts⟩ := hcuts
    obtain ⟨hsel, hadmits⟩ := ih hcuts hcs
    cases d with
    | point e => obtain ⟨_, _, ⟨⟩⟩ := cut_point.1 hcut
    | interval lo hi =>
      obtain ⟨a, b, ha, hb, ⟨⟩⟩ := cut_interval.1 hcut
      exact ⟨.interval (checked_eval.1 ha) (checked_eval.1 hb) (by omega)
        (by omega) hsel, .cons ⟨by omega, by omega⟩ hadmits⟩

theorem Env.of_window {w : Window} {v : View} (h : checked.window env w = some v)
    (hcs : v.Covers k cs) :
    ∃ base, env.view w.buf = .ok base ∧ env.Selects base.dims w.dims cs ∧ base.Covers k cs := by
  obtain ⟨base, cuts, dims, hbase, hcuts, hdims, rfl⟩ := window_eq_some.1 h
  obtain ⟨hsel, hadmits⟩ := Env.selects_of_narrows hcuts hdims hcs.2
  exact ⟨base, Env.view_eq_ok.2 hbase, hsel, hcs.1, hadmits⟩

/-! ## Environments without the element -/

/-- No name stands for a view of the element. -/
def Env.Avoids (env : Env) (k : Nat) (cs : List Word) : Prop :=
  ∀ x v, env.view? x = some v → ¬ v.Covers k cs

/-! ## Stores with the element -/

section store

variable {α : Type}
variable {t : Tensor α} {st : Store α}

/-- Tensor `k` is there with the type, the shape and the size of `t`, and its element at `cs`. -/
def Store.Holds (k : Nat) (t : Tensor α) (cs : List Word) (st : Store α) : Prop :=
  ∃ t', st[k]? = some t' ∧ t'.slot = t.slot ∧ t'.get? cs = t.get? cs

theorem Store.Holds.lt_length (h : st.Holds k t cs) : k < st.length := by
  obtain ⟨t', ht', -⟩ := h
  exact (List.getElem?_eq_some_iff.1 ht').1

variable [Element α]

theorem Tensor.get?_modify_of_ne {cs' : List Word} {o : Nat} (ho : t.offset? cs' = some o)
    (hne : cs' ≠ cs) (f : α → α) : (t.modify o f).get? cs = t.get? cs := by
  have hoff : (t.modify o f).offset? cs = t.offset? cs := rfl
  rw [get?, get?, hoff]
  cases ho' : t.offset? cs with
  | none => rfl
  | some o' =>
    have : o ≠ o' := by
      rintro rfl
      exact hne (offsetFrom?_inj ho ho').2
    simp [modify, Array.getElem?_modify, this]

/-- An assignment through a view without the element leaves it alone. -/
theorem Store.Holds.modifyAt {buf : String} {idx : List Expr} {place : Nat × Nat}
    (h : st.Holds k t cs) (henv : env.Avoids k cs) (hplace : st.locate env buf idx = .ok place)
    (f : α → α) : (st.modifyAt place f).Holds k t cs := by
  obtain ⟨t', ht', hslot, hget⟩ := h
  obtain ⟨v, cs', u, hvc, hu, ho, hnumber⟩ := Store.locate_eq_ok.1 hplace
  obtain ⟨hv, ns, -, hcs'⟩ := Env.address_eq_ok.1 hvc
  by_cases hk : v.tensor = k
  · have hne : cs' ≠ cs := by
      rintro rfl
      exact henv buf v hv ⟨hk, hcs'.admits⟩
    rw [hk] at hu hnumber
    obtain rfl := Option.mem_unique ht' hu
    refine ⟨t'.modify place.2 f, by simp [Store.modifyAt, hnumber, ht'], ?_, ?_⟩
    · simpa [Tensor.slot, Tensor.modify] using hslot
    · rw [Tensor.get?_modify_of_ne ho hne, hget]
  · exact ⟨t', by simp [Store.modifyAt, hnumber, hk, ht'], hslot, hget⟩

end store

/-! ## Calls -/

section calls

variable {α : Type} [Element α]

/-- Where no name stands for a view of the element, no run changes it. -/
theorem frame_invariant (c : Catalog) (k : Nat) (t : Tensor α) (cs : List Word) :
    Invariant c (fun env lay => k < lay.length ∧ env.Avoids k cs) (Store.Holds k t cs) where
  grow h hgrows := ⟨Nat.lt_of_lt_of_le h.1 hgrows.length_le, h.2⟩
  bind_index x n h := ⟨h.1, Env.forall_view_bind h.2 x nofun⟩
  bind_whole h _ _ := by
    rw [List.length_append]
    refine ⟨Nat.lt_add_right _ h.1, Env.forall_view_bind h.2 _ fun v hv hcov => ?_⟩
    cases hv
    exact absurd hcov.1 (Nat.ne_of_gt h.1)
  enter h hin := by
    refine ⟨h.1, fun x v hv hcov => ?_⟩
    obtain ⟨w, -, hw⟩ := Catalog.view?_of_enter hin hv
    obtain ⟨base, hbase, -, hcov⟩ := Env.of_window hw hcov
    exact h.2 w.buf base (Env.view_eq_ok.1 hbase) hcov
  alloc h _ := by
    obtain ⟨t', ht', hsame⟩ := id h
    exact ⟨t', by rwa [List.getElem?_append_left h.lt_length], hsame⟩
  assign f h henv hplace := h.modifyAt henv.2 hplace f
  release h h' _ := by
    obtain ⟨t', ht', hsame⟩ := h'
    exact ⟨t', by rwa [List.getElem?_take_of_lt h.lt_length], hsame⟩

/-- **A call touches only its windows.** Let a tensor be there before a call, and let no window of
the call select the element at `cs`. Whether the call ends or fails, the tensor is there afterwards
and the element has its old value. -/
theorem Stmt.call_frame (c : Catalog) (depth : Nat) (env : Env) (name : String)
    (args : List Window) (st : Store α) (k : Nat) (t : Tensor α) (cs : List Word)
    (ht : st[k]? = some t)
    (hout : ∀ w ∈ args, ∀ base, env.view w.buf = .ok base → base.tensor = k →
      ¬ env.Selects base.dims w.dims cs) :
    Store.Holds k t cs (((Stmt.call name args).exec c (Block.exec c depth) env).run.run st).2 := by
  have hst : st.Holds k t cs := ⟨t, ht, rfl, rfl⟩
  have hrun : Keeps (Store.Holds k t cs) (fun _ _ => True)
      ((Stmt.call name args).exec c (Block.exec c depth) env) st := by
    rw [Stmt.exec]
    refine .bind_eval hst fun x hin => ?_
    obtain ⟨inner, body⟩ := x
    have hinner : inner.Avoids k cs := by
      intro x v hv hcov
      obtain ⟨w, hw, hv⟩ := Catalog.view?_of_enter hin hv
      obtain ⟨base, hbase, hsel, hcov⟩ := Env.of_window hv hcov
      exact hout w hw base hbase hcov.1 hsel
    have hk : k < st.layout.length := by
      rw [st.length_layout]
      exact hst.lt_length
    obtain ⟨hst', hlay⟩ := Block.exec_keeps (frame_invariant c k t cs) depth inner body
      ⟨hk, hinner⟩ hst
    have hbody : Keeps (Store.Holds k t cs) (fun _ _ => True) (Block.exec c depth inner body) st :=
      ⟨hst', hlay ▸ List.prefix_rfl, fun _ _ => trivial⟩
    exact hbody.bind fun _ s hs _ _ => .pure hs trivial
  exact hrun.store

end calls

/-- Clear two elements by further calls, and then run into an error. -/
def clearPair : Proc where
  name := "clear_pair"
  params := [.buffer ⟨"dst", .f32, [.int 2], .dram⟩]
  body := [.alloc ⟨"tmp", .f32, [.int 2], .dram⟩,
    .loop ⟨"i", .int 2, .seq⟩ [
      .store .set "tmp" [.var "i"] (.int 1),
      .call "clear_one" [⟨"dst", [.interval (.var "i") (.add (.var "i") (.int 1))]⟩]],
    .store .set "dst" [.int 2] (.int 0)]

/-- The call writes the first row and fails. The second row is as it was. -/
theorem Stmt.clearPair_frame :
    let t : Tensor Mark := ⟨.f32, [2, 2], Array.replicate 4 .blank⟩
    let env : Env := [("A", .buffer (.whole 0 "A" [2, 2]))]
    let row : Window := ⟨"A", [.point (.int 0), .interval (.int 0) (.int 2)]⟩
    let c : Catalog := ⟨[clearCell, clearPair]⟩
    let run := ((Stmt.call "clear_pair" [row]).exec c (Block.exec c 1) env).run.run [t]
    run.1.isOk = false ∧ (run.2[0]?).bind (·.get? [0, 1]) = some .written ∧
      Store.Holds 0 t [1, 1] run.2 := by
  refine ⟨by cbv, by cbv, Stmt.call_frame _ 1 _ _ _ _ 0 _ [1, 1] rfl ?_⟩
  intro w hw base hbase _ hsel
  obtain rfl := List.mem_singleton.1 hw
  cases hbase
  cases hsel with
  | point hp hi _ =>
    cases hp
    revert hi
    decide

end LoopNest
