import LoopNest.Proofs.Context

/-!
# Statements that leave tensors behind

A statement is replaced by statements that allocate, so the tensors of the new kernel get other
numbers from there to the end of the block. The states of the two runs are then related by
`Enlarges`: the second has more tensors, and the old ones have kept their elements. At the end of
the block only the old ones are left, and the stores are the same again (`Proc.run_enlarged`).

The two need to agree only in the states that the run comes to: what the new statements do may
depend on the elements that are there.
-/

namespace LoopNest

variable {α : Type}
variable {st : Store α} {c : Catalog}

/-- The second state is the first one with more tensors in it. The first `n` tensors have the same
numbers in both. -/
def Enlarges (n : Nat) (env : Env) (st : Store α) (env' : Env) (st' : Store α) : Prop :=
  ∃ ρ, (∀ i < n, ρ i = .whole i) ∧ Seats ρ st.layout st'.layout ∧ env.Seats ρ [] env' ∧
    Seated Eq ρ st.length st st'

/-- The second environment has what the first one has, and the new tensors stand behind the old
ones. -/
theorem Enlarges.of_append {env env' : Env}
    (hkept : ∀ x, (env.lookup x).isSome → env'.lookup x = env.lookup x)
    (hlt : env.ViewsBelow st.length) (ext : Store α) :
    Enlarges st.length env st env' (st ++ ext) := by
  refine ⟨Seat.raised st.length ext.length, fun i => Seat.raised_of_lt, ?_, .raised hkept hlt _,
    (Seated.refl _ st).raised .refl _ ext⟩
  have hlay : Store.layout (st ++ ext) = st.layout ++ Store.layout ext := by simp [Store.layout]
  rw [hlay, ← Store.length_layout, ← Store.length_layout]
  exact .raised _ _

variable [Element α]

/-- Statements that lead into a larger state than the one they replace, and the rest of the block,
which runs in the larger state and may allocate there as well. -/
theorem Enlarges.take_perform {callee : Callee} (hc : callee.Closed)
    (hcallee : callee.Seated) {s : Stmt} {new rest : Block} (hdecl : s.decl? = none) {env e : Env}
    {acts : List Action}
    (hlocal : ∀ acts, s.trace .checked c callee env st.layout = some (acts, env) →
      ∃ acts' e', Stmt.traceAll .checked c callee env st.layout new = some (acts', e') ∧
        Enlarges st.length env (perform acts st) e' (perform acts' st))
    (ht : Stmt.traceAll .checked c callee env st.layout (s :: rest) = some (acts, e)) :
    ∃ acts' e', Stmt.traceAll .checked c callee env st.layout (new ++ rest) = some (acts', e') ∧
      (perform acts' st).take st.length = (perform acts st).take st.length := by
  obtain ⟨a, e₁, a', e₂, hs, hrest, ⟨⟩⟩ := Stmt.traceAll_cons.1 ht
  obtain ⟨-, rfl⟩ := (Stmt.trace_grows hc hs).1 hdecl
  obtain ⟨x, f, hx, ρ, hold, hρ, henv, hseated⟩ := hlocal a hs
  rw [← layout_perform] at hrest
  obtain ⟨y, f', hy, htake⟩ := (Block.turns_self rest).take_perform Rewording.without_sound hc
    hcallee hρ hseated henv hold (Stmt.trace_grows hc hs).2.length_le hrest
  rw [layout_perform] at hy
  refine ⟨x ++ y, f', Stmt.traceAll_append.2 ⟨x, f, y, f', hx, hy, rfl⟩, ?_⟩
  rwa [perform_append, perform_append]

/-- **Replacing in a kernel by statements that leave tensors behind.** -/
theorem Proc.run_enlarged {p : Proc} {args : Args α} {s : Stmt} {new b : Block}
    {path : Path} (hdecl : s.decl? = none) (hrel : Block.Replaced s new path p.body b)
    (hlocal : ∀ env st acts, p.Reaches c args path env st →
      s.trace .checked c c.calls env st.layout = some (acts, env) →
        ∃ acts' e', c.traceAll env st.layout new = some (acts', e') ∧
          Enlarges st.length env (perform acts st) e' (perform acts' st))
    (hrun : (p.run c args).1 = .ok ()) : { p with body := b }.run c args = p.run c args := by
  obtain ⟨rest, hrel⟩ := hrel
  exact run_recast hrel (fun env e st acts hreach => Enlarges.take_perform c.calls_closed
    c.calls_seated hdecl fun acts => hlocal env st acts hreach) hrun

end LoopNest
