import LoopNest.Proofs.Context

/-!
# Arguments with other tensors

What a kernel binds and gives back does not depend on the elements of its arguments. So arguments of
the same shapes are bound alike (`Args.bindParams_mapTensors`), and where elements of the final
stores are related, so are elements of what is given back (`Args.rel_giveBack`).
-/

namespace LoopNest

namespace Args

variable {α β : Type}

theorem lookup_map {β γ : Type} (f : String → β → γ) (l : List (String × β)) (x : String) :
    (l.map fun (n, b) => (n, f n b)).lookup x = (l.lookup x).map (f x) := by
  induction l with
  | nil => rfl
  | cons nb l ih =>
    obtain ⟨n, b⟩ := nb
    by_cases hx : x = n
    · simp [hx]
    · simp [List.lookup_cons, beq_false_of_ne hx, ih]

theorem lookup_zip {γ : Type} (names : List String) (l : List γ) (x : String) :
    (names.zip l).lookup x = (names.idxOf? x).bind (l[·]?) := by
  induction names generalizing l with
  | nil => rfl
  | cons n names ih =>
    cases l with
    | nil => cases names.idxOf? x <;> simp
    | cons t l =>
      rw [List.zip_cons_cons, List.lookup_cons, List.idxOf?_cons]
      by_cases hx : n = x
      · simp [hx]
      · simp only [beq_false_of_ne hx, beq_false_of_ne (Ne.symm hx), ih]
        cases names.idxOf? x <;> simp

/-! ## Binding -/

/-- The arguments with other tensors. -/
def mapTensors (f : Tensor α → Tensor β) (args : Args α) : Args β :=
  ⟨args.sizes, args.buffers.map fun b => (b.1, f b.2)⟩

/-- The frame with other tensors. -/
def Frame.mapTensors (f : Tensor α → Tensor β) (fr : Frame α) : Frame β :=
  ⟨fr.env, fr.store.map f, fr.names⟩

theorem lookup_mapTensors (f : Tensor α → Tensor β) (args : Args α) (x : String) :
    (args.mapTensors f).buffers.lookup x = (args.buffers.lookup x).map f :=
  lookup_map (fun _ => f) args.buffers x

variable {f : Tensor α → Tensor β} {args : Args α} {params : List Param}

section

variable (hf : ∀ t, (f t).shape = t.shape ∧ (f t).ty = t.ty)
include hf

/-- **One parameter** is bound alike to a tensor of the same shape. -/
theorem Accepts.mapTensors {param : Param} {fr fr' : Frame α} (h : args.Accepts fr param fr') :
    (args.mapTensors f).Accepts (fr.mapTensors f) param (fr'.mapTensors f) := by
  cases h with
  | size hv hpos => exact .size hv hpos
  | @buffer d t hshape hnew ht hty =>
    have hlookup : (args.mapTensors f).buffers.lookup d.name = some (f t) := by
      rw [lookup_mapTensors, ht, Option.map_some]
    have haccepts := Accepts.buffer (f := fr.mapTensors f) ((hf t).1.symm ▸ hshape) hnew hlookup
      ((hf t).2.trans hty)
    simpa [Frame.mapTensors, (hf t).1] using haccepts

theorem AcceptsAll.mapTensors {fr fr' : Frame α} (h : args.AcceptsAll fr params fr') :
    (args.mapTensors f).AcceptsAll (fr.mapTensors f) params (fr'.mapTensors f) := by
  induction h with
  | nil => exact .nil
  | cons hq _ ih => exact .cons (hq.mapTensors hf) ih

/-- Parameters are bound alike. -/
theorem bindParams_mapTensors {frame : Frame α} (h : args.bindParams params = .ok frame) :
    (args.mapTensors f).bindParams params = .ok (frame.mapTensors f) := by
  exact bindParams_eq_ok.2 ((bindParams_eq_ok.1 h).mapTensors hf)

end

/-- The tensors that are bound are among the arguments. -/
theorem mem_buffers_of_bindParams {frame : Frame α} (h : args.bindParams params = .ok frame) :
    ∀ t ∈ frame.store, ∃ b ∈ args.buffers, b.2 = t := by
  refine keeps_of_bindParams (P := fun _ f => ∀ t ∈ f.store, ∃ b ∈ args.buffers, b.2 = t) h
    (by simp) fun hq hf => ?_
  cases hq with
  | size => exact hf
  | @buffer d t _ _ ht _ =>
    refine List.forall_mem_append.2 ⟨hf, List.forall_mem_singleton.2 ?_⟩
    obtain ⟨l, l', hl, -⟩ := List.lookup_eq_some_iff.1 ht
    exact ⟨(d.name, t), by rw [hl]; simp, rfl⟩

/-! ## Giving back -/

theorem lookup_giveBack (args : Args α) (names : List String) (st : Store α) (x : String) :
    (args.giveBack names st).buffers.lookup x =
      (args.buffers.lookup x).map fun t => ((names.zip st).lookup x).getD t :=
  lookup_map (fun n t => ((names.zip st).lookup n).getD t) args.buffers x

/-- The element of a buffer at an offset. -/
def at? (args : Args α) (x : String) (o : Nat) : Option α :=
  (args.buffers.lookup x).bind (·.data[o]?)

/-- Where elements of the tensors are related before and after, those given back are. -/
theorem rel_giveBack {R : α → β → Prop} {f : Tensor β → Tensor α}
    (hf : ∀ (t : Tensor β) (o : Nat), Option.Rel R (f t).data[o]? t.data[o]?) {args : Args β}
    {st : Store α} {st' : Store β} (hlay : st.layout = st'.layout)
    (hst : ∀ q, Option.Rel R (st.at? q) (st'.at? q)) (names : List String) (x : String) (o : Nat) :
    Option.Rel R (((args.mapTensors f).giveBack names st).at? x o)
      ((args.giveBack names st').at? x o) := by
  rw [at?, at?, lookup_giveBack, lookup_giveBack, lookup_mapTensors, lookup_zip, lookup_zip]
  cases args.buffers.lookup x with
  | none => exact .none
  | some t =>
    cases names.idxOf? x with
    | none => exact hf t o
    | some i =>
      have hslot : (st[i]?).map Tensor.slot = (st'[i]?).map Tensor.slot := by
        rw [← List.getElem?_map, ← List.getElem?_map]
        exact congrArg (·[i]?) hlay
      have hplace := hst (i, o)
      cases hi : st[i]? with
      | none =>
        cases hi' : st'[i]? with
        | none => simpa [hi, hi'] using hf t o
        | some u' => simp [hi, hi'] at hslot
      | some u =>
        cases hi' : st'[i]? with
        | none => simp [hi, hi'] at hslot
        | some u' => simpa [Store.at?, hi, hi'] using hplace

end Args

end LoopNest
