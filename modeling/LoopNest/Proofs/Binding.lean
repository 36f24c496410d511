import LoopNest.Eval.Run
import LoopNest.Proofs.IndexValue

/-!
# Binding parameters

What each parameter of a kernel is bound to (`Args.Accepts`), and from that what the parameters are
bound to one after the other (`Args.AcceptsAll`).
-/

namespace LoopNest.Args

variable {α : Type} {args : Args α} {f f' : Frame α}
variable {params : List Param} {frame : Frame α}

/-- A size is bound to a number that is at least 1, and a buffer to the whole tensor that is given
for it, which has the declared type and shape. -/
inductive Accepts (args : Args α) (f : Frame α) : Param → Frame α → Prop
  | size {n : String} {v : Word} : args.sizes.lookup n = some v → 1 ≤ v.toInt →
    Accepts args f (.size n) { f with env := f.env.bind n (.index v) }
  | buffer {d : Decl} {t : Tensor α} : f.env.shape d = .ok t.shape → d.name ∉ f.names →
    args.buffers.lookup d.name = some t → t.ty = d.ty →
    Accepts args f (.buffer d) ⟨f.env.bind d.name (.buffer (.whole f.store.length d.name t.shape)),
      f.store ++ [t], f.names ++ [d.name]⟩

theorem bindParam_eq_ok {q : Param} : args.bindParam f q = .ok f' ↔ args.Accepts f q f' := by
  have hone (v : Word) : ¬ v < 1 ↔ 1 ≤ v.toInt := by
    rw [Int64.lt_iff_toInt_lt, Int.not_lt]
    rfl
  constructor
  · intro h
    cases q with
    | size n =>
      simp only [bindParam] at h
      split at h
      · cases h
      next v hv =>
        split at h
        · cases h
        next hpos =>
          cases h
          exact .size hv ((hone v).1 hpos)
    | buffer d =>
      simp only [bindParam, except_bind_eq_ok] at h
      obtain ⟨shape, hshape, h⟩ := h
      split at h
      · cases h
      next t ht =>
        split at ht
        · cases ht
        next hnew =>
          split at h
          next hfits =>
            cases h
            obtain ⟨rfl, hty⟩ := hfits
            exact .buffer hshape (by simpa using hnew) ht hty
          · cases h
  · rintro (⟨hv, hpos⟩ | @⟨d, t, hshape, hnew, ht, hty⟩)
    · simp only [bindParam, hv, if_neg ((hone _).2 hpos)]
    · have hfree : f.names.contains d.name = false := by simpa using hnew
      simp only [bindParam, except_bind_eq_ok]
      refine ⟨t.shape, hshape, ?_⟩
      rw [hfree, if_neg Bool.false_ne_true, ht]
      exact if_pos ⟨rfl, hty⟩

/-- The parameters are bound in order. -/
inductive AcceptsAll (args : Args α) : Frame α → List Param → Frame α → Prop
  | nil {f : Frame α} : AcceptsAll args f [] f
  | cons {f f' f'' : Frame α} {q : Param} {rest : List Param} : args.Accepts f q f' →
    AcceptsAll args f' rest f'' → AcceptsAll args f (q :: rest) f''

theorem bindParams_eq_ok :
    args.bindParams params = .ok frame ↔ args.AcceptsAll ⟨[], [], []⟩ params frame := by
  suffices hfold : ∀ f, params.foldlM (bindParam args) f = .ok frame ↔
      args.AcceptsAll f params frame from hfold _
  induction params with
  | nil => exact fun f => ⟨fun h => by cases h; exact .nil, fun h => by cases h; rfl⟩
  | cons q params ih =>
    intro f
    simp only [List.foldlM_cons, except_bind_eq_ok, bindParam_eq_ok, ih]
    exact ⟨fun ⟨f', hq, h⟩ => .cons hq h, fun h => by cases h with | cons hq h => exact ⟨_, hq, h⟩⟩

/-- What every step keeps. `P` speaks of the parameters that are left. -/
theorem keeps_of_bindParams {P : List Param → Frame α → Prop}
    (h : args.bindParams params = .ok frame) (start : P params ⟨[], [], []⟩)
    (step : ∀ {q rest f f'}, args.Accepts f q f' → P (q :: rest) f → P rest f') : P [] frame := by
  rw [bindParams_eq_ok] at h
  generalize (⟨[], [], []⟩ : Frame α) = f at h start
  induction h with
  | nil => exact start
  | cons hq _ ih => exact ih (step hq start)

end LoopNest.Args
