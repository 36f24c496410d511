import LoopNest.Proofs.Returned
import LoopNest.Proofs.Rounding
import LoopNest.Proofs.Written

/-!
# Elements are values of their types

Whatever is stored is rounded to the type of the tensor, and so are the elements of the arguments. So
in every state of a run an element is a value of the type of its tensor, or it was never written
(`Store.Holding`). A float type also holds what is no number, and an integer type does not: a new
tensor of integers starts with elements that are no integers (`Proc.Visits.representable`).
-/

namespace LoopNest

section holding

variable {α : Type} [Element α]
variable {st : Store α} {args : Args α}

/-- All elements are values of the types of their tensors, or, from tensor `n` on, were never
written. -/
def Store.Holding (n : Nat) (st : Store α) : Prop :=
  ∀ k t, st[k]? = some t → ∀ v ∈ t.data, Element.round t.ty v = v ∨ n ≤ k ∧ v = Element.undefined

/-- A new tensor was never written. -/
theorem Store.Holding.append {n : Nat} (h : st.Holding n) (hn : n ≤ st.length) {ty : Scalar}
    {shape : List Nat} {t : Tensor α} (ht : Tensor.undefined? ty shape = some t) :
    (st ++ [t]).Holding n := by
  obtain ⟨size, -, ⟨⟩⟩ := Option.bind_eq_some_iff.1 ht
  intro k u hu v hv
  rw [List.getElem?_append] at hu
  split at hu
  · exact h k u hu v hv
  next hk =>
    rw [List.getElem?_singleton] at hu
    split at hu
    · cases hu
      exact .inr ⟨by omega, (Array.mem_replicate.1 hv).2⟩
    · cases hu

variable (hround : ∀ ty (x : α), Element.round ty (Element.round ty x) = Element.round ty x)
include hround

/-- What is assigned is rounded. -/
theorem Store.Holding.modifyAt {n : Nat} (h : st.Holding n) (place : Nat × Nat) (f : α → α) :
    (st.modifyAt place f).Holding n := by
  intro k u hu v hv
  rw [Store.modifyAt, List.getElem?_modify] at hu
  obtain ⟨t, ht, rfl⟩ := Option.map_eq_some_iff.1 hu
  split at hv
  · obtain ⟨o, ho⟩ := Array.getElem?_of_mem hv
    simp only [Tensor.modify, Array.getElem?_modify] at ho
    split at ho
    · obtain ⟨old, -, rfl⟩ := Option.map_eq_some_iff.1 ho
      rw [if_pos ‹_›]
      exact .inl (hround _ _)
    · rw [if_pos ‹_›]
      exact h k t ht v (Array.mem_of_getElem? ho)
  · rw [if_neg ‹_›]
    exact h k t ht v hv

theorem holding_invariant (c : Catalog) (n : Nat) :
    Invariant c (fun _ _ => True) (fun st : Store α => n ≤ st.length ∧ st.Holding n) where
  grow _ _ := trivial
  bind_index _ _ _ := trivial
  bind_whole _ _ _ := trivial
  enter _ _ := trivial
  alloc h ht := ⟨by simpa using Nat.le_succ_of_le h.1, h.2.append h.1 ht⟩
  assign f h _ _ := ⟨by simpa [Store.modifyAt] using h.1, h.2.modifyAt hround _ f⟩
  release {st st'} h h' hlay := by
    have hlen := hlay.length_le
    rw [Store.length_layout, Store.length_layout] at hlen
    refine ⟨by rw [List.length_take, Nat.min_eq_left hlen]; exact h.1, fun k t ht => ?_⟩
    rw [List.getElem?_take] at ht
    split at ht
    · exact h'.2 k t ht
    · cases ht

/-! ## Arguments -/

omit hround in
theorem forall_putNamed {β : Type} {P : β → Prop} {name : String} {b : β} {l : List (String × β)}
    (hb : P b) (h : ∀ x ∈ l, P x.2) : ∀ x ∈ putNamed name b l, P x.2 := by
  fun_induction putNamed name b l with
  | case1 => simpa using hb
  | case2 => exact List.forall_mem_cons.2 ⟨hb, (List.forall_mem_cons.1 h).2⟩
  | case3 _ _ _ _ ih =>
    obtain ⟨hfirst, h⟩ := List.forall_mem_cons.1 h
    exact List.forall_mem_cons.2 ⟨hfirst, ih h⟩

/-- Arguments that are made for a kernel hold values of their types. -/
theorem Args.held_of_forProc {p : Proc} {sizes : List (String × Word)} {fill : Decl → Nat → α}
    (h : forProc p sizes fill = .ok args) : args.Held := by
  have hallocate : ∀ (ds : List Decl) {buffers out : List (String × Tensor α)},
      (∀ b ∈ buffers, ∀ x ∈ b.2.data, Element.round b.2.ty x = x) →
      allocate (sizeEnv sizes) fill buffers ds = .ok out →
        ∀ b ∈ out, ∀ x ∈ b.2.data, Element.round b.2.ty x = x := by
    intro ds
    induction ds with
    | nil =>
      rintro buffers out hbuffers ⟨⟩
      exact hbuffers
    | cons d ds ih =>
      intro buffers out hbuffers h
      simp only [allocate, except_bind_eq_ok, noOverflow_eq_ok] at h
      obtain ⟨shape, -, t, ht, h⟩ := h
      obtain ⟨size, -, ⟨⟩⟩ := Option.bind_eq_some_iff.1 ht
      refine ih (forall_putNamed (P := fun t : Tensor α => ∀ x ∈ t.data, Element.round t.ty x = x)
        (fun x hx => ?_) hbuffers) h
      obtain ⟨i, rfl⟩ := Array.mem_ofFn.1 hx
      exact hround _ _
  unfold forProc at h
  split at h
  · cases h
  next =>
    obtain ⟨buffers, hbuffers, ⟨⟩⟩ := except_bind_eq_ok.1 h
    exact hallocate _ (by simp) hbuffers

/-- **What is stored is rounded.** In every state of a run, the elements of the tensors that were
given for the `n` buffers are values of their types, and other elements are so or never written. -/
theorem Proc.Visits.holding {p : Proc} {c : Catalog} {env : Env} (hargs : args.Held)
    (h : p.Visits c args env st) : st.Holding p.bufferParams.length := by
  refine (h.keeps (holding_invariant hround c p.bufferParams.length) fun frame hframe => ?_).2.2
  have hlen : frame.store.length = p.bufferParams.length := by
    rw [← (Args.takes_of_bindParams hframe).length, Args.names_of_bindParams hframe, List.length_map]
  refine ⟨trivial, hlen.ge, fun k t ht v hv => .inl ?_⟩
  obtain ⟨b, hb, rfl⟩ := Args.mem_buffers_of_bindParams hframe t (List.mem_of_getElem? ht)
  exact hargs b hb v hv

end holding

/-! ## Doubles -/

/-- **Stored elements are representable, or integers that were never written.** In every state of a
run on arguments that were made for a kernel, an element is a value of the type of its tensor, or the
tensor is one of integers that the run allocated and the element is no number. -/
theorem Proc.Visits.representable {q p : Proc} {c : Catalog} {sizes : List (String × Word)}
    {fill : Decl → Nat → Float} {args : Args Float} (hargs : Args.forProc q sizes fill = .ok args)
    {env : Env} {st : Store Float} (h : p.Visits c args env st) {k : Nat} {t : Tensor Float}
    (ht : st[k]? = some t) {v : Float} (hv : v ∈ t.data) :
    Element.round t.ty v = v ∨
      p.bufferParams.length ≤ k ∧ (t.ty = .i32 ∨ t.ty = .i8) ∧ v.isNaN = true := by
  have hround := Double.rounding.again
  obtain hv | ⟨hk, rfl⟩ := h.holding hround (Args.held_of_forProc hround hargs) k t ht v hv
  · exact .inl hv
  · have hnan : (Element.undefined : Float).isNaN = true := by decide +kernel
    cases t.ty with
    | f32 => exact .inl (Double.round_single_of_isNaN hnan)
    | f64 => exact .inl rfl
    | i32 => exact .inr ⟨hk, .inl rfl, hnan⟩
    | i8 => exact .inr ⟨hk, .inr rfl, hnan⟩

/-- Copy an integer that was never written. -/
def copyUnwritten (ty : Scalar) : Proc where
  name := "copy_unwritten"
  params := [.buffer ⟨"x", ty, [.int 1], .dram⟩]
  body := [.alloc ⟨"t", .i32, [.int 1], .dram⟩, .store .set "x" [.int 0] (.read "t" [.int 0])]

/-- In the end `x` holds an integer that an `i8` can hold. -/
theorem Proc.copyUnwritten_representable : ∃ args env st t,
    Args.forProc (copyUnwritten .i8) [] (fun _ _ => (300 : Float)) = .ok args ∧
      (copyUnwritten .i8).Visits {} args env st ∧ st[0]? = some t ∧ t.ty = .i8 ∧
      ∀ v ∈ t.data, Element.round t.ty v = v := by
  obtain ⟨args, env, st, t, hargs, hvisits, ht, hty⟩ : ∃ args env st t,
      Args.forProc (copyUnwritten .i8) [] (fun _ _ => (300 : Float)) = .ok args ∧
        (copyUnwritten .i8).Visits {} args env st ∧ st[0]? = some t ∧ t.ty = .i8 :=
    ⟨_, _, _, _, rfl, ⟨_, 0, rfl, .inl (.next rfl (.next rfl .here))⟩, rfl, rfl⟩
  refine ⟨args, env, st, t, hargs, hvisits, ht, hty, fun v hv => ?_⟩
  obtain hround | ⟨hlen, -⟩ := hvisits.representable hargs ht hv
  · exact hround
  · cases hlen

/-- After the allocation `t` holds an element that is no integer. -/
theorem Proc.copyUnwritten_not_representable : ∃ args env st t v,
    (copyUnwritten .f64).problems (some (Catalog.find? {})) = [] ∧
      Args.forProc (copyUnwritten .f64) [] (fun _ _ => (0 : Float)) = .ok args ∧
      (copyUnwritten .f64).Visits {} args env st ∧ st[1]? = some t ∧ v ∈ t.data ∧
      Element.round t.ty v ≠ v := by
  refine ⟨_, _, _, ⟨.i32, [1], #[Element.undefined]⟩, Element.undefined, by decide, rfl,
    ⟨_, 0, rfl, .inl (.next rfl .here)⟩, rfl, by simp, ?_⟩
  decide +kernel

end LoopNest
