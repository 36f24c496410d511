import LoopNest.Proofs.Arguments
import LoopNest.Proofs.Invariant

/-!
# What a run gives back

While a kernel runs, its tensors stand at the front of the store, in the order of its parameters
(`Args.Frame.Takes`). Blocks release what they allocate, also where they fail, so the same tensors
stand there in the end, and each goes back under its own name (`Proc.run_returns_tensors`).
-/

namespace LoopNest

variable {α : Type}

/-- The tensors after a block, whether it ends or fails. -/
theorem Block.layout_exec [Element α] (c : Catalog) (depth : Nat) (env : Env) (b : Block)
    (st : Store α) : ((Block.exec c depth env b).run.run st).2.layout = st.layout := by
  have inv : Invariant c (fun _ _ => True) (fun _ : Store α => True) := by constructor <;> simp
  exact (Block.exec_keeps inv depth env b trivial trivial).2

namespace Args

/-- The tensors in the store are those given for the names. -/
structure Frame.Takes (args : Args α) (f : Frame α) : Prop where
  length : f.names.length = f.store.length
  given : ∀ x t, (f.names.zip f.store).lookup x = some t → args.buffers.lookup x = some t

variable {args : Args α} {f : Frame α}

/-- The step: a buffer takes the tensor given for its name. -/
theorem Accepts.takes {f' : Frame α} {q : Param} (hq : args.Accepts f q f') (h : f.Takes args) :
    f'.Takes args := by
  cases hq with
  | size => exact ⟨h.length, h.given⟩
  | @buffer d t _ _ ht _ =>
    refine ⟨by simp [h.length], fun x u hu => ?_⟩
    rw [List.zip_append h.length, List.lookup_append, Option.or_eq_some_iff] at hu
    obtain hu | ⟨-, hu⟩ := hu
    · exact h.given x u hu
    · by_cases hx : x = d.name
      · rw [hx, ht]
        simpa [hx] using hu
      · simp [List.lookup_cons, beq_false_of_ne hx] at hu

theorem takes_of_bindParams {params : List Param} {frame : Frame α}
    (h : args.bindParams params = .ok frame) : frame.Takes args :=
  keeps_of_bindParams (P := fun _ f => f.Takes args) h ⟨rfl, by simp⟩ fun hq hf => hq.takes hf

/-- The names are those of the buffers, in order. -/
theorem names_of_bindParams {p : Proc} {frame : Frame α} (h : args.bindParams p.params = .ok frame) :
    frame.names = p.bufferParams.map (·.name) := by
  have hend := keeps_of_bindParams (P := fun rest f =>
    f.names ++ (rest.filterMap (·.decl?)).map (·.name) = p.bufferParams.map (·.name)) h rfl @?_
  · simpa using hend
  · intro q rest f f' hq hf
    cases hq with
    | size | buffer => simpa [Param.decl?] using hf

/-- Every name has its tensor. -/
theorem Frame.Takes.exists_tensor (h : f.Takes args) {x : String} (hx : x ∈ f.names) :
    ∃ t, args.buffers.lookup x = some t := by
  cases ht : (f.names.zip f.store).lookup x with
  | some t => exact ⟨t, h.given x t ht⟩
  | none =>
    rw [lookup_zip, Option.bind_eq_none_iff] at ht
    obtain ⟨i, hi⟩ := Option.isSome_iff_exists.1 (List.isSome_idxOf?.2 hx)
    have hlt : i < f.store.length := h.length ▸ (List.idxOf?_eq_some_iff.1 hi).1
    exact absurd (List.getElem?_eq_none_iff.1 (ht i hi)) (Nat.not_le.2 hlt)

/-- Tensors of the same shapes are given back. -/
theorem slot_giveBack (hf : f.Takes args) {st : Store α} (hst : st.layout = f.store.layout)
    (x : String) :
    ((args.giveBack f.names st).buffers.lookup x).map Tensor.slot =
      (args.buffers.lookup x).map Tensor.slot := by
  have hzip : ((f.names.zip st).lookup x).map Tensor.slot =
      ((f.names.zip f.store).lookup x).map Tensor.slot := by
    have hslots (st : Store α) : ((f.names.zip st).lookup x).map Tensor.slot =
        (f.names.zip st.layout).lookup x := by
      rw [← lookup_map fun _ => Tensor.slot, Store.layout, List.zip_map_right]
      rfl
    rw [hslots, hslots, hst]
  rw [lookup_giveBack]
  cases hx : args.buffers.lookup x with
  | none => rfl
  | some t =>
    cases hu : (f.names.zip st).lookup x with
    | none => simp
    | some u =>
      rw [hu, Option.map_some] at hzip
      obtain ⟨t', ht', hslot⟩ := Option.map_eq_some_iff.1 hzip.symm
      have := (hf.given x t' ht').symm.trans hx
      simp_all

/-- A tensor that was not taken stays as it is. -/
theorem lookup_giveBack_of_notMem (args : Args α) {names : List String} (st : Store α) {x : String}
    (hx : x ∉ names) : (args.giveBack names st).buffers.lookup x = args.buffers.lookup x := by
  have hnone : names.idxOf? x = none := List.idxOf?_eq_none_iff.2 hx
  rw [lookup_giveBack, lookup_zip, hnone]
  simp

end Args

/-- A run that does not start leaves the arguments alone. Any other gives back tensors like those that
it took. -/
theorem Proc.args_run [Element α] (p : Proc) (c : Catalog) (args : Args α) :
    (p.run c args).2 = args ∨ ∃ frame st, args.bindParams p.params = .ok frame ∧
      st.layout = frame.store.layout ∧ (p.run c args).2 = args.giveBack frame.names st := by
  unfold Proc.run
  split
  · exact .inl rfl
  next frame hframe =>
    have hlay := Block.layout_exec c c.callDepth frame.env p.body frame.store
    cases hrun : (Block.exec c c.callDepth frame.env p.body).run.run frame.store with
    | mk result st => exact .inr ⟨frame, st, hframe, by simpa only [hrun] using hlay, rfl⟩

/-- **Every run keeps the shape of every tensor.** -/
theorem Proc.slots_run [Element α] (p : Proc) (c : Catalog) (args : Args α) (x : String) :
    ((p.run c args).2.buffers.lookup x).map Tensor.slot =
      (args.buffers.lookup x).map Tensor.slot := by
  obtain h | ⟨frame, st, hframe, hlay, h⟩ := p.args_run c args <;> rw [h]
  exact Args.slot_giveBack (Args.takes_of_bindParams hframe) hlay x

theorem Proc.names_run [Element α] (p : Proc) (c : Catalog) (args : Args α) :
    (p.run c args).2.buffers.map (·.1) = args.buffers.map (·.1) := by
  obtain h | ⟨frame, st, -, -, h⟩ := p.args_run c args <;> rw [h]
  simp [Args.giveBack]

/-- A run that ends was given a tensor for every buffer. -/
theorem Proc.exists_tensor_of_run [Element α] {p : Proc} {c : Catalog} {args args' : Args α}
    (h : p.run c args = (.ok (), args')) {d : Decl} (hd : d ∈ p.bufferParams) :
    ∃ t, args.buffers.lookup d.name = some t := by
  unfold Proc.run at h
  split at h
  · cases h
  next frame hframe =>
    refine (Args.takes_of_bindParams hframe).exists_tensor ?_
    exact Args.names_of_bindParams hframe ▸ List.mem_map.2 ⟨d, hd, rfl⟩

end LoopNest
