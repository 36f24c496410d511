import LoopNest.Proofs.Reached

/-!
# The way to spliced statements

Statements of a kernel are taken out from a path on, and others are put in their place. On the way
to that path nothing has changed: a run of the new kernel comes to it in environments in which the
old kernel, if it runs to its end, comes to the statements that were there
(`Block.Recast.reaches`). Elements may differ by then, since the new statements may have run in
earlier rounds, but environments and layouts never depend on elements.
-/

namespace LoopNest

open Exec Stmt

namespace Block

variable {α : Type} [Element α] {c : Catalog} {callee : Callee} {exec : Env → Block → Exec α Unit}

/-- **The way to recast statements.** The induction is along the path; on it both blocks are the
same, and what differs between the stores is never looked at. -/
theorem Recast.reaches (hc : callee.Closed) (hruns : callee.Runs exec) (hcov : callee.Covers exec)
    {s : Stmt} {rest new : Block} {path : Path} {b b' : Block} (h : Recast (s :: rest) new path b b')
    {env env' e : Env} {st st₁ st' : Store α} {acts : List Action} (hlay : st.layout = st₁.layout)
    (ht : traceAll .checked c callee env st.layout b = some (acts, e))
    (hreach : Reaches c exec env st₁ b' path env' st') :
    ∃ st'' acts' e', Reaches c exec env st b path env' st'' ∧
      traceAll .checked c callee env' st''.layout (s :: rest) = some (acts', e') := by
  induction h generalizing env e st st₁ acts with
  | here =>
    -- both runs start at the statements
    have hsame : env' = env := by
      cases hreach with
      | here => rfl
      | loop _ _ _ hreach | guard _ hreach => exact absurd rfl hreach.path_ne_nil
    subst hsame
    exact ⟨st, acts, e, .here, ht⟩
  | @next i path t rest rest' h ih =>
    obtain ⟨a, e₁, a', e₂, hs, hrest, hr⟩ := traceAll_cons.1 ht
    cases hreach with
    | next hrun hreach =>
      obtain ⟨x, hx, rfl⟩ := trace_of_exec .checked hc hcov hrun
      rw [← hlay, hs, Option.some.injEq] at hx
      obtain ⟨rfl, rfl⟩ := Prod.mk.inj hx
      rw [← layout_perform] at hrest
      obtain ⟨st'', acts', e', hreach', htrace⟩ := ih
        (by rw [layout_perform, layout_perform, hlay]) hrest hreach
      exact ⟨st'', acts', e', .next (exec_of_trace hc hruns hs) hreach', htrace⟩
  | @inside path t body body' rest hbody h ih =>
    obtain ⟨a, e₁, a', e₂, hs, hrest, hr⟩ := traceAll_cons.1 ht
    cases t with
    | loop hd b =>
      cases hbody
      obtain ⟨n, g, hn, hg, -⟩ := trace_loop.1 hs
      cases hreach with
      | here => exact absurd rfl h.path_ne_nil
      | @loop _ _ _ _ _ _ _ _ m k _ hm hk hrounds hreach =>
        obtain rfl : n = m := by
          rw [Evaluator.checked_eval, hm] at hn
          exact (Except.ok.inj hn).symm
        obtain ⟨e', he'⟩ := hg k hk
        -- the rounds before this one may leave different elements, but the same layout
        have hrun := run_rounds hc hruns fun j (hj : j < k) => hg j (Nat.lt_trans hj hk)
        have hlay' := layout_of_countUp (fun _ _ _ => layout_of_round hc hcov) hrun
        have hlay₁ := layout_of_countUp (fun _ _ _ => layout_of_round hc hcov) hrounds
        obtain ⟨st'', acts', e', hreach', htrace⟩ :=
          ih (by rw [hlay', hlay₁, hlay]) (by rwa [hlay']) hreach
        exact ⟨st'', acts', e', .loop hm hk hrun hreach', htrace⟩
    | guard cond b =>
      cases hbody
      cases hreach with
      | here => exact absurd rfl h.path_ne_nil
      | guard hcond hreach =>
        obtain ⟨hfalse, -⟩ | ⟨-, x, e', hx, -⟩ := trace_guard.1 hs
        · rw [(Evaluator.checked.condition_tallies _).eq_some hcond] at hfalse
          cases hfalse
        · obtain ⟨st'', acts', e', hreach', htrace⟩ := ih hlay hx hreach
          exact ⟨st'', acts', e', .guard hcond hreach', htrace⟩
    | _ => cases hbody

end Block

/-- **The way to spliced statements of a kernel.** Where the run of the new kernel comes to them,
the run of the old one, if it ends, comes to those that were there, and they run to their ends. -/
theorem Proc.Reaches.before_splice {α : Type} [Element α] {p : Proc} {c : Catalog} {args : Args α}
    {path : Path} {old new b : Block} {env : Env} {st : Store α}
    (hreach : { p with body := b }.Reaches c args path env st)
    (hspliced : Block.Spliced old new path p.body b) (hold : old ≠ [])
    (hrun : (p.run c args).1 = .ok ()) :
    ∃ st' rest acts e, p.Reaches c args path env st' ∧ p.body.from? path = some (old ++ rest) ∧
      c.traceAll env st'.layout old = some (acts, e) := by
  obtain ⟨frame, acts, e, hframe, ht⟩ := Proc.traceAll_of_run hrun
  obtain ⟨frame', hframe', hreach⟩ := hreach
  obtain rfl := Except.ok.inj (hframe.symm.trans hframe')
  obtain ⟨s, old, rfl⟩ := List.exists_cons_of_ne_nil hold
  obtain ⟨rest, hrecast⟩ := hspliced
  obtain ⟨st', acts', e', hreach', htrace⟩ :=
    hrecast.reaches c.calls_closed c.calls_runs c.calls_covers rfl ht hreach
  obtain ⟨x, e₁, -, -, hx, -⟩ := traceAll_append (b := s :: old).1 htrace
  exact ⟨st', rest, x, e₁, ⟨frame, hframe, hreach'⟩, hrecast.from?, hx⟩

end LoopNest
