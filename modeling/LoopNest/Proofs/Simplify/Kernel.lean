import LoopNest.Proofs.Simplify.Blocks

/-!
# Simplification keeps results

Where a kernel runs to its end, the simplified kernel runs to its end with the same tensors, or it
overflows in an index expression that has been rewritten (`Proc.run_simplified`). Such an expression
has the value of the old one, which is a word; only a step on the way to it is none.
-/

namespace LoopNest

open Stmt

variable {α : Type}
variable {args : Args α} {acts : List Action}

/-! ## Rounds -/

/-- Sizes are at least 1. -/
theorem Args.holds_of_bindParams {params : List Param} {frame : Frame α}
    (h : args.bindParams params = .ok frame) (sizes : List String) :
    Ranges.Holds ⟨sizes, []⟩ frame.env := by
  intro v n hn
  unfold Ranges.ofVar
  simp only [List.lookup_nil]
  split
  · exact ⟨fun lo hlo => by cases hlo; exact Args.one_le_of_bindParams h hn, nofun⟩
  · exact ⟨nofun, nofun⟩

section rounds

variable {c : Catalog} {callee : Callee} {seen : List String} {env : Env} {lay : Layout}

/-- One round on a block, up to the end of its scope. -/
theorem Block.simplify_equiv (hc : callee.Closed) (hm : callee.Seated) {rs : Ranges} {b : Block}
    {e : Env} (htidy : env.Tidy seen lay) (hrs : rs.Holds env) (hfresh : FreshAll seen b)
    (ht : traceAll .wide c callee env lay b = some (acts, e)) :
    ∃ acts' e', traceAll .wide c callee env lay (b.simplify rs) = some (acts', e') ∧
      Equiv lay (scope lay acts) (scope lay acts') := by
  have hsame : env.Zeroed [] env := ⟨fun _ _ => rfl, nofun, nofun⟩
  exact (Block.simplifiesWell hc hm b rs [] seen hfresh).dropDead hc hm
    (freshAll_simplifyAll rs [] hfresh) htidy hsame hrs ht

/-- Any number of rounds. -/
theorem Proc.simplifyRounds_equiv (hc : callee.Closed) (hm : callee.Seated) (n : Nat) {p : Proc}
    {e : Env} (htidy : env.Tidy seen lay) (hrs : Ranges.Holds ⟨p.sizes, []⟩ env)
    (hfresh : FreshAll seen p.body)
    (ht : traceAll .wide c callee env lay p.body = some (acts, e)) :
    ∃ acts' e', traceAll .wide c callee env lay (p.simplifyRounds n).body =
        some (acts', e') ∧ Equiv lay (LoopNest.scope lay acts) (LoopNest.scope lay acts') := by
  induction n generalizing p acts e with
  | zero => exact ⟨acts, e, ht, .refl _ _⟩
  | succ n ih =>
    obtain ⟨x, e₁, hx, heq⟩ := Block.simplify_equiv hc hm htidy hrs hfresh ht
    have hfresh' : FreshAll seen (p.body.simplify ⟨p.sizes, []⟩) :=
      freshAll_dropDead (freshAll_simplifyAll _ _ hfresh)
    obtain ⟨y, e₂, hy, heq'⟩ := ih (p := { p with body := p.body.simplify ⟨p.sizes, []⟩ })
      hrs hfresh' hx
    exact ⟨y, e₂, hy, heq.trans heq'⟩

theorem Proc.params_simplifyRounds (p : Proc) (n : Nat) : (p.simplifyRounds n).params = p.params := by
  induction n generalizing p with
  | zero => rfl
  | succ n ih => exact ih _

end rounds

/-! ## Kernels -/

/-- The run of a kernel comes to a statement with an index expression whose exact value is a word, but
on the way to it the machine overflows. -/
def Proc.OverflowsOnTheWay [Element α] (p : Proc) (c : Catalog) (args : Args α) : Prop :=
  ∃ path env st s, p.Reaches c args path env st ∧ p.stmt? path = some s ∧
    ∃ e ∈ s.indexExprs, Evaluator.wide.Misses env e

/-- The second kernel runs as the first does, or it overflows on the way to the value of an index
expression. -/
def Proc.RunsAs [Element α] (p q : Proc) (c : Catalog) (args : Args α) : Prop :=
  q.run c args = p.run c args ∨ (q.run c args).1 = .error .overflow ∧ q.OverflowsOnTheWay c args

/-- A kernel with a body that has the same effect if words were unbounded. -/
theorem Proc.runsAs_of_equiv [Element α] {p q : Proc} {c : Catalog} (hparams : q.params = p.params)
    (h : ∀ frame acts e, args.bindParams p.params = .ok frame →
      traceAll .wide c c.calls frame.env frame.store.layout p.body = some (acts, e) →
        ∃ acts' e', traceAll .wide c c.calls frame.env frame.store.layout q.body =
          some (acts', e') ∧ Equiv frame.store.layout (LoopNest.scope frame.store.layout acts)
            (LoopNest.scope frame.store.layout acts'))
    (hrun : (p.run c args).1 = .ok ()) : p.RunsAs q c args := by
  cases hframe : args.bindParams p.params with
  | error e => simp [Proc.run, hframe] at hrun
  | ok frame =>
    have hframe' : args.bindParams q.params = .ok frame := by rw [hparams, hframe]
    simp only [Proc.RunsAs, Proc.run, hframe, hframe', Block.exec_callDepth, run_inScope] at hrun ⊢
    obtain ⟨acts, e, hacts, hst⟩ := traceAll_of_execAll .wide c.calls_closed c.calls_covers
      p.body (Prod.ext hrun rfl)
    obtain ⟨acts', e', hacts', heq⟩ := h frame acts e hframe hacts
    obtain hok | ⟨⟨st, hover⟩, hmeets⟩ :=
      execAll_ends c.calls_closed c.calls_runs q.body hacts'
    · left
      have hsame := heq.2 α frame.store rfl
      rw [perform_scope, perform_scope] at hsame
      simp only [hok, hrun, hst, hsame]
    · right
      obtain ⟨path, env, st', s, hreach, hget, he⟩ := hmeets
      exact ⟨by rw [hover], path, env, st', s, ⟨frame, hframe', hreach⟩, hget, he⟩

/-- **Simplification keeps results.** A valid kernel that runs to its end on some arguments does so
when it is simplified, for the usual or any other number of rounds, and leaves the same tensors;
unless it overflows on the way to the value of a rewritten index expression. -/
theorem Proc.run_simplified [Element α] {p : Proc} {c : Catalog} {args : Args α}
    {templates : Scope.Templates} (hvalid : p.problems templates = [])
    (hrun : (p.run c args).1 = .ok ()) :
    p.RunsAs p.simplify c args ∧ ∀ n, p.RunsAs (p.simplifyRounds n) c args := by
  have hrounds : ∀ n, p.RunsAs (p.simplifyRounds n) c args := fun n => by
    refine Proc.runsAs_of_equiv (p.params_simplifyRounds n) (fun frame acts e hframe ht => ?_) hrun
    exact Proc.simplifyRounds_equiv c.calls_closed c.calls_seated n
      (Args.tidy_of_bindParams hframe) (Args.holds_of_bindParams hframe p.sizes)
      (Proc.freshAll hvalid) ht
  exact ⟨hrounds 32, hrounds⟩

/-- A copy with an unused tensor, a loop that runs once, one that never runs, and a guard that always
holds. -/
def roundabout : Proc where
  name := "roundabout"
  params := [.size "n", .buffer ⟨"A", .f32, [.var "n"], .dram⟩,
    .buffer ⟨"B", .f32, [.var "n"], .dram⟩]
  body := [.alloc ⟨"T", .f32, [.var "n"], .dram⟩,
    .loop ⟨"z", .int 1, .seq⟩ [
      .loop ⟨"i", .binary .add (.var "n") (.var "z"), .seq⟩ [
        .store .set "T" [.var "i"] (.read "A" [.var "i"]),
        .guard (.binary .ge (.var "i") (.var "z")) [
          .store .set "B" [.binary .sub (.binary .add (.var "i") (.int 2)) (.int 2)]
            (.read "A" [.binary .mul (.var "i") (.int 1)])]]],
    .loop ⟨"u", .binary .sub (.int 3) (.int 3), .seq⟩ [.store .set "B" [.int 0] (.int 7)]]

theorem roundabout_simplified :
    let args : Args Float := ⟨[("n", 2)], [("A", ⟨.f32, [2], #[1, 2]⟩), ("B", ⟨.f32, [2], #[0, 0]⟩)]⟩
    (roundabout.run {} args).1 = .ok () ∧ roundabout.RunsAs roundabout.simplify {} args ∧
      roundabout.simplify.body = [.loop ⟨"i", .var "n", .seq⟩ [
        .store .set "B" [.var "i"] (.read "A" [.var "i"])]] := by
  intro args
  have hvalid : roundabout.problems (some (Catalog.find? {})) = [] := rfl
  have hrun : (roundabout.run {} args).1 = .ok () := rfl
  exact ⟨hrun, (Proc.run_simplified hvalid hrun).1, by cbv⟩

end LoopNest
