import LoopNest.Proofs.Arguments
import LoopNest.Proofs.Hoist

/-!
# Elements that have been written

What a run does to its store does not depend on the elements, so it can be followed in any
arithmetic (`Block.Reaches.follow`). In the arithmetic of `Mark` the only thing known of an element
is whether it has been written: allocations start out blank, and every store leaves a mark. A kernel
reads written elements only (`Proc.ReadsWritten`) if none of its expressions ever comes out blank.

An element that was written has been rounded to the type of its buffer. Where arguments hold values
of their types, this is so of all elements with a mark, in every state of a run
(`Proc.Reaches.kept`).
-/

namespace LoopNest

open Exec Stmt

variable {path : Path} {params : List Param}

/-! ## Runs in another arithmetic -/

section follow

variable {α β : Type} [Element α] [Element β] {c : Catalog} {callee : Callee}
  {exec : Env → Block → Exec α Unit} {exec' : Env → Block → Exec β Unit}
variable {R : Store α → Store β → Prop} {st' : Store β}

/-- Actions keep what each of them keeps of stores with the same layout. -/
theorem perform_follow
    (hstep : ∀ (a : Action) st st', st.layout = st'.layout → R st st' →
      R (a.perform st) (a.perform st'))
    (acts : List Action) {st : Store α} (hlay : st.layout = st'.layout)
    (h : R st st') : (perform acts st).layout = (perform acts st').layout ∧
      R (perform acts st) (perform acts st') := by
  induction acts generalizing st st' with
  | nil => exact ⟨hlay, h⟩
  | cons a acts ih =>
    exact ih (by rw [layout_performAction, layout_performAction, hlay]) (hstep a st st' hlay h)

/-- **A run in another arithmetic** comes to the same statements in the same environments. The
induction is along the run; both stores go through the same actions. -/
theorem Block.Reaches.follow (hc : callee.Closed) (hruns : callee.Runs exec)
    (hruns' : callee.Runs exec')
    (hstep : ∀ (a : Action) st st', st.layout = st'.layout → R st st' →
      R (a.perform st) (a.perform st'))
    {env env' e : Env} {st st₁ : Store α} {b : Block}
    {acts : List Action} (h : Block.Reaches c exec env st b path env' st₁)
    (ht : traceAll .checked c callee env st.layout b = some (acts, e))
    (hlay : st.layout = st'.layout) (hR : R st st') :
    ∃ st₁', Block.Reaches c exec' env st' b path env' st₁' ∧ st₁.layout = st₁'.layout ∧
      R st₁ st₁' := by
  induction h generalizing st' acts e with
  | here => exact ⟨st', .here, hlay, hR⟩
  | next hrun hreach ih =>
    obtain ⟨a, e₁, a', e₂, hs, hrest, -⟩ := traceAll_cons.1 ht
    obtain ⟨henv, rfl⟩ := Prod.mk.inj (hrun.symm.trans (exec_of_trace hc hruns hs))
    cases henv
    -- the statement has the same trace in both, for traces depend on the layout only
    obtain ⟨hlay', hR'⟩ := perform_follow hstep a hlay hR
    rw [← layout_perform] at hrest
    obtain ⟨st₁', hreach', hlast⟩ := ih hrest hlay' hR'
    rw [hlay] at hs
    exact ⟨st₁', .next (exec_of_trace hc hruns' hs) hreach', hlast⟩
  | @loop env env'' st st₂ st'' hd body rest m k path hm hk hrounds hreach ih =>
    obtain ⟨a, e₁, a', e₂, hs, hrest, -⟩ := traceAll_cons.1 ht
    obtain ⟨n, g, hn, hg, -⟩ := trace_loop.1 hs
    obtain rfl : n = m := by
      rw [Evaluator.checked_eval, hm] at hn
      exact (Except.ok.inj hn).symm
    have hbefore := fun j (hj : j < k) => hg j (Nat.lt_trans hj hk)
    obtain ⟨-, rfl⟩ := Prod.mk.inj (hrounds.symm.trans (run_rounds hc hruns hbefore))
    obtain ⟨hlay', hR'⟩ := perform_follow hstep
      ((List.range k).flatMap fun k => scope st.layout (g k)) hlay hR
    obtain ⟨e', he'⟩ := hg k hk
    rw [← layout_rounds hc hbefore] at he'
    obtain ⟨st₁', hreach', hlast⟩ := ih he' hlay' hR'
    rw [hlay] at hbefore hreach'
    exact ⟨st₁', .loop hm hk (run_rounds hc hruns' hbefore) hreach', hlast⟩
  | guard hcond hreach ih =>
    obtain ⟨a, e₁, a', e₂, hs, hrest, -⟩ := traceAll_cons.1 ht
    obtain ⟨hfalse, -⟩ | ⟨-, x, e', hx, -⟩ := trace_guard.1 hs
    · rw [(Evaluator.checked.condition_tallies _).eq_some hcond] at hfalse
      cases hfalse
    · obtain ⟨st₁', hreach', hlast⟩ := ih hx hlay hR
      exact ⟨st₁', .guard hcond hreach', hlast⟩

end follow

/-! ## Marks -/

/-- Whether an element has been written, or whether all elements have been that a value is computed
from. -/
def Mark : Type := Bool

def Mark.written : Mark := true

def Mark.blank : Mark := false

instance : Element Mark where
  ofWord _ := .written
  ofFloat _ := .written
  add := and
  sub := and
  mul := and
  div := and
  mod := and
  neg := id
  round _ _ := .written
  undefined := .blank

variable {α : Type}

/-- The tensor with a mark for every element. -/
def Tensor.marked (t : Tensor α) : Tensor Mark :=
  ⟨t.ty, t.shape, Array.replicate t.data.size .written⟩

/-- The arguments with a mark for every element. -/
def Args.marked (args : Args α) : Args Mark :=
  ⟨args.sizes, args.buffers.map fun b => (b.1, b.2.marked)⟩

/-- No statement of the kernel computes a value from an element that was never written. -/
def Proc.ReadsWritten (p : Proc) (c : Catalog) (args : Args α) : Prop :=
  ∀ path env st u b idx rhs, p.Reaches c args.marked path env st →
    p.stmt? path = some (.store u b idx rhs) → st.data env rhs = .ok .written

/-- All that a written value is computed from is written. -/
theorem Term.at?_of_eval_written {t : Term} {st : Store Mark} (h : t.eval st = Mark.written) :
    ∀ p ∈ t.loads, st.at? p = some .written := by
  induction t with
  | word n | float x => simp [Term.loads]
  | load q =>
    intro p hp
    obtain rfl := List.mem_singleton.1 hp
    cases hq : st.at? p with
    | none =>
      rw [Term.eval, hq] at h
      cases h
    | some x =>
      rw [Term.eval, hq] at h
      exact congrArg some h
  | binary op l r ihl ihr =>
    have hboth : l.eval st = Mark.written ∧ r.eval st = Mark.written := by
      cases op <;> first | exact Bool.and_eq_true_iff.1 h | cases h
    intro p hp
    exact (List.mem_append.1 hp).elim (ihl hboth.1 p) (ihr hboth.2 p)
  | neg t ih => exact ih h

/-! ## What has been written has been rounded -/

/-- A new tensor has no marks. -/
theorem Store.at?_append_blank {marks : Store Mark} {p : Place} (h : marks.length ≤ p.1)
    (ty : Scalar) (shape : List Nat) (size : Nat) :
    Store.at? (marks ++ [⟨ty, shape, Array.replicate size Mark.blank⟩]) p ≠ some .written := by
  rw [Store.at?, List.getElem?_append_right h]
  intro hat
  cases hi : p.1 - marks.length with
  | zero =>
    rw [hi] at hat
    have hmem := Array.mem_of_getElem? (show (Array.replicate size Mark.blank)[p.2]? = _ from hat)
    cases (Array.mem_replicate.1 hmem).2
  | succ i =>
    rw [hi] at hat
    cases hat

/-- Elements with a mark are values of the types of their tensors. -/
def Kept [Element α] (st : Store α) (marks : Store Mark) : Prop :=
  ∀ p x ty, marks.at? p = some .written → st.at? p = some x →
    (st.layout[p.1]?).map (·.ty) = some ty → Element.round ty x = x

/-- **One action** keeps this: what it stores it rounds. -/
theorem Kept.perform [Element α]
    (hround : ∀ ty (x : α), Element.round ty (Element.round ty x) = Element.round ty x) (a : Action)
    (st : Store α) (marks : Store Mark) (hlay : st.layout = marks.layout) (h : Kept st marks) :
    Kept (a.perform st) (a.perform marks) := by
  intro q x ty hmark hx hty
  rw [layout_performAction] at hty
  cases a with
  | store u p t =>
    by_cases hq : q = p
    · -- the element that is written
      subst hq
      obtain ⟨y, hy⟩ := Store.exists_at?_of_layout (layout_performAction _ st) hx
      cases u <;>
      · rw [Action.perform, Store.at?_modifyAt_self hty hy] at hx
        rw [← Option.some.inj hx, hround]
    · have hsame : ∀ {β : Type} [Element β] (s : Store β),
          ((Action.store u p t).perform s).at? q = s.at? q := by
        intro β _ s
        cases u <;> exact Store.at?_modifyAt_of_ne hq _
      rw [hsame] at hmark hx
      exact h q x ty hmark hx hty
  | alloc ty' shape size =>
    have hlen : st.length = marks.length := by
      rw [← Store.length_layout, hlay, Store.length_layout]
    by_cases hlt : q.1 < st.length
    · rw [Action.perform, Store.at?_append hlt] at hx
      rw [Action.perform, Store.at?_append (hlen ▸ hlt)] at hmark
      rw [Action.relayout, List.getElem?_append_left (by rwa [Store.length_layout])] at hty
      exact h q x ty hmark hx hty
    · -- the new tensor has no marks yet
      exact absurd hmark (Store.at?_append_blank (by omega) ty' shape size)
  | release m =>
    by_cases hlt : q.1 < m
    · rw [Action.perform, Store.at?_take hlt] at hx hmark
      rw [Action.relayout, List.getElem?_take_of_lt hlt] at hty
      exact h q x ty hmark hx hty
    · rw [Action.perform, Store.at?_eq_none (by rw [List.length_take]; omega)] at hx
      cases hx

/-! ## Arguments -/

/-- The tensors hold values of their types. -/
def Args.Held [Element α] (args : Args α) : Prop :=
  ∀ b ∈ args.buffers, ∀ x ∈ b.2.data, Element.round b.2.ty x = x

theorem Args.bindParams_marked {args : Args α} {frame : Frame α}
    (h : args.bindParams params = .ok frame) :
    args.marked.bindParams params = .ok (frame.mapTensors (·.marked)) := by
  have hslot : ∀ t : Tensor α, t.marked.shape = t.shape ∧ t.marked.ty = t.ty :=
    fun _ => ⟨rfl, rfl⟩
  exact Args.bindParams_mapTensors hslot h

/-- Where arguments hold values of their types, a run starts with such values. -/
theorem Args.kept_of_bindParams [Element α] {args : Args α} (hargs : args.Held) {frame : Frame α}
    (h : args.bindParams params = .ok frame) : Kept frame.store (frame.store.map (·.marked)) := by
  intro p x ty _ hx hty
  rw [Store.at?, Option.bind_eq_some_iff] at hx
  obtain ⟨t, ht, hx⟩ := hx
  obtain ⟨b, hb, rfl⟩ := Args.mem_buffers_of_bindParams h t (List.mem_of_getElem? ht)
  rw [Store.layout, List.getElem?_map, ht] at hty
  obtain rfl := Option.some.inj hty
  exact hargs b hb x (Array.mem_of_getElem? hx)

/-- **What a run comes to is kept.** Beside every state of a run on arguments that hold values of
their types there is one with marks, and elements with a mark are values of their types. -/
theorem Proc.Reaches.kept [Element α]
    (hround : ∀ ty (x : α), Element.round ty (Element.round ty x) = Element.round ty x) {p : Proc}
    {c : Catalog} {args : Args α} {env : Env} {st : Store α} (hargs : args.Held)
    (hrun : (p.run c args).1 = .ok ()) (h : p.Reaches c args path env st) :
    ∃ marks, p.Reaches c args.marked path env marks ∧ st.layout = marks.layout ∧ Kept st marks := by
  obtain ⟨frame, hframe, hreach⟩ := h
  simp only [Proc.run, hframe, Block.exec_callDepth, run_inScope] at hrun
  obtain ⟨acts, e, hacts, -⟩ := traceAll_of_execAll .checked c.calls_closed c.calls_covers
    p.body (Prod.ext hrun rfl)
  have hlay : frame.store.layout = Store.layout (frame.store.map (·.marked)) := by
    simp [Store.layout, Tensor.slot, Tensor.marked, Function.comp_def]
  obtain ⟨marks, hreach', hlast⟩ := hreach.follow c.calls_closed c.calls_runs c.calls_runs
    (Kept.perform hround) hacts hlay (Args.kept_of_bindParams hargs hframe)
  exact ⟨marks, ⟨_, Args.bindParams_marked hframe, hreach'⟩, hlast⟩

end LoopNest
