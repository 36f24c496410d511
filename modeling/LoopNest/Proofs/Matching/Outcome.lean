import LoopNest.Proofs.Trace.OfRun

/-!
# Runs with the same outcome

Two computations go the same way if both give related results, or both fail in the same way. An
error names the expression or the name that is to blame, so failures are compared by their kind.
`Agrees` and `InStep` leave out computations that overflow: nothing is said of the other side then.
-/

namespace LoopNest

/-- Failures of the same kind. -/
inductive Failure.Alike : Failure → Failure → Prop
  | error {e e' : EvalError} : e.kindName = e'.kindName → Alike (.error e) (.error e')
  | overflow : Alike .overflow .overflow
  | tooDeep : Alike .tooDeep .tooDeep

theorem Failure.Alike.refl (f : Failure) : f.Alike f := by
  cases f with
  | error e => exact .error rfl
  | overflow => exact .overflow
  | tooDeep => exact .tooDeep

/-- Related results, or failures of the same kind. -/
inductive Alike {β γ : Type} (R : β → γ → Prop) : Except Failure β → Except Failure γ → Prop
  | ok {b : β} {c : γ} : R b c → Alike R (.ok b) (.ok c)
  | error {f f' : Failure} : f.Alike f' → Alike R (.error f) (.error f')

variable {α β γ δ ζ : Type} {R : β → γ → Prop} {S : δ → ζ → Prop}

/-! ## Evaluation -/

/-- The results are alike, unless one of the two overflows. -/
def Agrees (R : β → γ → Prop) (x : Except Failure β) (y : Except Failure γ) : Prop :=
  Alike R x y ∨ x = .error .overflow ∨ y = .error .overflow

namespace Agrees

theorem ok {b : β} {c : γ} (h : R b c) : Agrees R (.ok b) (.ok c) := .inl (.ok h)

theorem fail {e e' : EvalError} (h : e.kindName = e'.kindName) :
    Agrees R (failWith e) (failWith e') := .inl (.error (.error h))

theorem refl (x : Except Failure β) : Agrees Eq x x := by
  cases x with
  | ok b => exact .ok rfl
  | error f => exact .inl (.error (.refl f))

theorem bind {x : Except Failure β} {y : Except Failure γ} {f : β → Except Failure δ}
    {g : γ → Except Failure ζ} (h : Agrees R x y)
    (hf : ∀ b c, x = .ok b → y = .ok c → R b c → Agrees S (f b) (g c)) :
    Agrees S (x >>= f) (y >>= g) := by
  obtain hxy | rfl | rfl := h
  · cases hxy with
    | ok hR => exact hf _ _ rfl rfl hR
    | error hff => exact .inl (.error hff)
  · exact .inr (.inl rfl)
  · exact .inr (.inr rfl)

end Agrees

/-! ## Execution -/

/-- From the same store both computations end alike and leave the same store, with as many tensors
as before, unless one of the two overflows. -/
def InStep (R : β → γ → Prop) (x : Exec α β) (y : Exec α γ) (st : Store α) : Prop :=
  (Alike R (x.run.run st).1 (y.run.run st).1 ∧ (x.run.run st).2 = (y.run.run st).2 ∧
    (y.run.run st).2.length = st.length) ∨
    (x.run.run st).1 = .error .overflow ∨ (y.run.run st).1 = .error .overflow

namespace InStep

variable {st : Store α}

theorem pure {b : β} {c : γ} (h : R b c) : InStep R (Pure.pure b : Exec α β) (Pure.pure c) st :=
  .inl ⟨.ok h, rfl, rfl⟩

theorem of_agrees {x : Except Failure β} {y : Except Failure γ} (h : Agrees R x y) :
    InStep R (Exec.eval x : Exec α β) (Exec.eval y) st := by
  obtain h | h | h := h
  · exact .inl ⟨h, rfl, rfl⟩
  · exact .inr (.inl h)
  · exact .inr (.inr h)

variable {x : Exec α β} {y : Exec α γ}

theorem bind {f : β → Exec α δ} {g : γ → Exec α ζ} (h : InStep R x y st)
    (hf : ∀ b c st', (x.run.run st).1 = .ok b → (y.run.run st).1 = .ok c → R b c →
      InStep S (f b) (g c) st') : InStep S (x >>= f) (y >>= g) st := by
  obtain ⟨hxy, hst, hlen⟩ | hx | hy := h
  · cases hx : x.run.run st with
    | mk r st' =>
      cases hy : y.run.run st with
      | mk r' st'' =>
        rw [hx, hy] at hxy hst hf
        rw [hy] at hlen
        obtain rfl : st' = st'' := hst
        cases hxy with
        | ok hR =>
          have hnext := hf _ _ st' rfl rfl hR
          rw [InStep, run_bind_ok hx, run_bind_ok hy, ← hlen]
          exact hnext
        | error hff =>
          rw [InStep, run_bind_error hx, run_bind_error hy]
          exact .inl ⟨.error hff, rfl, hlen⟩
  · right
    left
    rw [run_bind_error (Prod.ext hx rfl)]
  · right
    right
    rw [run_bind_error (Prod.ext hy rfl)]

theorem get : InStep Eq (MonadState.get : Exec α (Store α)) MonadState.get st :=
  .inl ⟨.ok rfl, rfl, rfl⟩

theorem modify {f : Store α → Store α} (hf : ∀ s : Store α, (f s).length = s.length) :
    InStep (fun _ _ => True) (modify f : Exec α PUnit) (modify f) st :=
  .inl ⟨.ok trivial, rfl, hf st⟩

/-- Where no tensor is added, leaving a scope changes nothing. -/
theorem inScope_left (h : InStep R x y st) : InStep R (Exec.inScope x) y st := by
  rw [InStep, run_inScope]
  obtain ⟨hxy, hst, hlen⟩ | h | h := h
  · refine .inl ⟨hxy, ?_, hlen⟩
    rw [← hlen, ← hst, List.take_length]
  · exact .inr (.inl h)
  · exact .inr (.inr h)

theorem inScope (h : InStep R x y st) : InStep R (Exec.inScope x) (Exec.inScope y) st := by
  have hleft := h.inScope_left
  rw [InStep, run_inScope y]
  obtain ⟨hxy, hst, hlen⟩ | h | h := hleft
  · have htake : (y.run.run st).2.take st.length = (y.run.run st).2 := by
      rw [← hlen, List.take_length]
    exact .inl ⟨hxy, by rw [htake, hst], by rw [htake, hlen]⟩
  · exact .inr (.inl h)
  · exact .inr (.inr h)

theorem countUp {f g : Word → Exec α Unit} {n k : Nat}
    (h : ∀ j st, k ≤ j → j < k + n →
      InStep (fun _ _ => True) (f (Int64.ofNat j)) (g (Int64.ofNat j)) st) :
    InStep (fun _ _ => True) (Exec.countUp f n k) (Exec.countUp g n k) st := by
  induction n generalizing k st with
  | zero => exact InStep.pure trivial
  | succ n ih =>
    refine InStep.bind (h k st (by omega) (by omega)) fun _ _ st' _ _ _ => ?_
    exact ih fun j st hj hlt => h j st (by omega) (by omega)

end InStep

end LoopNest
