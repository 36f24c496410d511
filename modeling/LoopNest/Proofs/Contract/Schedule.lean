import LoopNest.Proofs.Contract.Motion
import LoopNest.Proofs.Contract.Parts
import LoopNest.Proofs.Contract.Simplify
import LoopNest.Schedule.Replay

/-!
# Calls along a schedule

Of the steps only those that handle calls check the calls of the kernel they build. Still a schedule
takes kernels that are well formed with a catalog to such kernels, as long as the bounds of windows
do not overflow on the way (`Schedule.kernels_stay_valid`).
-/

namespace LoopNest

variable {c : Catalog} {p q : Proc}
variable {name : String} {templates : Scope.Templates}

namespace Proc

theorem firstProblem?_eq_none :
    p.firstProblem? templates = none ↔ p.problems templates = [] := List.head?_eq_none_iff

/-! ## Steps that check calls -/

theorem template_eq_ok {t : Proc} : template c name = .ok t ↔ c.find? name = some t := by
  unfold template
  cases c.find? name <;> simp

theorem problems_finishCalls {template : String} (hq : p.finishCalls c template = .ok q) :
    q.problems (some c.find?) = [] := by
  unfold finishCalls at hq
  split at hq
  next hnone =>
    cases hq
    exact firstProblem?_eq_none.1 hnone
  · split at hq <;> cases hq

theorem finishCalls_eq_ok {template : String} (h : p.finishCalls c template = .ok q) : q = p := by
  unfold finishCalls at h
  split at h
  · cases h
    rfl
  · split at h <;> cases h

theorem of_setMemory {alloc : String} {space : Space}
    (h : p.setMemory templates alloc space = .ok q) : ∃ path d b, p.stmt? path = some (.alloc d) ∧
      p.body.replace? path [.alloc { d with mem := space }] = some b ∧ q = { p with body := b } ∧
      q.problems templates = [] := by
  unfold setMemory at h
  simp only at h
  split at h
  · cases h
  obtain ⟨⟨path, d⟩, hpick, h⟩ := except_bind_eq_ok.1 h
  simp only at h
  split at h
  · cases h
  obtain ⟨q', hq', h⟩ := except_bind_eq_ok.1 h
  obtain ⟨b, hb, rfl⟩ := withBody_eq_ok.1 hq'
  split at h
  next hnone =>
    cases h
    exact ⟨path, d, b, stmt?_of_pickAlloc hpick, hb, rfl, firstProblem?_eq_none.1 hnone⟩
  · split at h <;> cases h

/-- What replacing does. -/
theorem of_replace {source : String} (h : p.replace c name source = .ok q) :
    ∃ t path call b, c.find? name = some t ∧ p.pickStmt source = .ok path ∧
      p.matchAt t path = .ok call ∧ p.body.edit? (Block.splice [call] t.body.length) path = some b ∧
      q = { p with body := b } ∧ q.problems (some c.find?) = [] := by
  unfold replace at h
  obtain ⟨t, ht, h⟩ := except_bind_eq_ok.1 h
  obtain ⟨path, hpath, h⟩ := except_bind_eq_ok.1 h
  split at h
  · cases h
  next call hcall =>
    obtain ⟨q', hq', h⟩ := except_bind_eq_ok.1 h
    have hvalid := problems_finishCalls h
    obtain rfl := finishCalls_eq_ok h
    obtain ⟨b, hb, rfl⟩ := withBody_eq_ok.1 hq'
    exact ⟨t, path, call, b, template_eq_ok.1 ht, hpath, hcall, hb, rfl, hvalid⟩

/-- **What every round keeps, all rounds keep.** -/
theorem replaceRounds_keeps {t : Proc} {P : Proc → Bool → Prop}
    (hround : ∀ {p any path call b}, P p any → p.matchAt t path = .ok call →
      p.body.edit? (Block.splice [call] t.body.length) path = some b → P { p with body := b } true)
    {n : Nat} {any any' : Bool} (h : replaceRounds t n any p = .ok (q, any')) (hp : P p any) :
    P q any' := by
  induction n generalizing any p with
  | zero =>
    unfold replaceRounds at h
    split at h
    · cases h
      exact hp
    · cases h
  | succ n ih =>
    unfold replaceRounds at h
    split at h
    · cases h
      exact hp
    next path call hfirst =>
      obtain ⟨p', hp', h⟩ := except_bind_eq_ok.1 h
      obtain ⟨b, hb, rfl⟩ := withBody_eq_ok.1 (refusable_eq_ok.1 hp')
      refine ih h (hround hp ?_ hb)
      obtain ⟨⟨path', s⟩, -, hsome⟩ := List.exists_of_findSome?_eq_some hfirst
      simp only at hsome
      split at hsome
      · cases hsome
      · split at hsome
        next hmatch =>
          cases hsome
          exact hmatch
        · cases hsome

/-- Replacing all matches leaves the kernel as it is, or a kernel that is checked at the end. -/
theorem of_replaceAll (h : p.replaceAll c name = .ok q) :
    ∃ t any n, c.find? name = some t ∧ replaceRounds t n false p = .ok (q, any) ∧
      (q = p ∨ q.problems (some c.find?) = []) := by
  unfold replaceAll at h
  obtain ⟨t, ht, h⟩ := except_bind_eq_ok.1 h
  obtain ⟨⟨p', any⟩, hrounds, h⟩ := except_bind_eq_ok.1 h
  have hfind := template_eq_ok.1 (refusable_eq_ok.1 ht)
  simp only at h
  split at h
  · have hq := refusable_eq_ok.1 h
    have hvalid := problems_finishCalls hq
    obtain rfl := finishCalls_eq_ok hq
    exact ⟨t, any, _, hfind, hrounds, .inr hvalid⟩
  next hany =>
    cases h
    refine ⟨t, any, _, hfind, hrounds, .inl ?_⟩
    -- a round has been made, or the kernel is still the first one
    refine (replaceRounds_keeps (P := fun q any => any = true ∨ q = p) (fun _ _ _ => .inl rfl)
      hrounds (.inr rfl)).resolve_left ?_
    rwa [Bool.not_eq_true] at hany ⊢

theorem problems_replaceAll (hp : p.problems (some c.find?) = [])
    (hq : p.replaceAll c name = .ok q) : q.problems (some c.find?) = [] := by
  obtain ⟨t, any, n, -, -, rfl | hvalid⟩ := of_replaceAll hq
  · exact hp
  · exact hvalid

end Proc

/-! ## Schedules -/

namespace Step

theorem apply_simplify (hp : p.problems (some c.find?) = []) :
    Step.simplify.apply c p = .ok p.simplify := by
  rw [apply, Proc.firstProblem?_eq_none.2 (Proc.problems_simplify hp)]

/-- One case for each step. -/
theorem problems_apply {step : Step} (hp : p.problems (some c.find?) = [])
    (hq : step.apply c p = .ok q) (hlin : q.body.Linear) : q.problems (some c.find?) = [] := by
  cases step with
  | rename name =>
    cases hq
    exact hp
  | split loop factor outer inner perfect => exact Proc.problems_split hp hlin hq
  | reorder outer inner => exact Proc.problems_reorder hp hlin (refusable_eq_ok.1 hq)
  | fissionAfter stmt lifts => exact Proc.problems_fissionAfter hp (refusable_eq_ok.1 hq)
  | liftAlloc alloc lifts keepDims => exact Proc.problems_liftAlloc hp (refusable_eq_ok.1 hq) hlin
  | stageReduction name reduction =>
    exact Proc.problems_stageReduction hp hlin (refusable_eq_ok.1 hq)
  | bindExpr name expr => exact Proc.problems_bindExpr hp hlin (refusable_eq_ok.1 hq)
  | setMemory buffer space =>
    obtain ⟨_, _, _, -, -, -, hvalid⟩ := Proc.of_setMemory (refusable_eq_ok.1 hq)
    exact hvalid
  | parToSeq loop => exact Proc.problems_parToSeq hp hlin (refusable_eq_ok.1 hq)
  | replace template selector =>
    obtain ⟨_, _, _, _, -, -, -, -, -, hvalid⟩ := Proc.of_replace (refusable_eq_ok.1 hq)
    exact hvalid
  | replaceAll template => exact Proc.problems_replaceAll hp hq
  | unroll loop => exact Proc.problems_unroll hp (refusable_eq_ok.1 hq) hlin
  | unrollBuffer alloc dim => exact Proc.problems_unrollBuffer hp (refusable_eq_ok.1 hq) hlin
  | simplify =>
    rw [apply_simplify hp] at hq
    cases hq
    exact Proc.problems_simplify hp

end Step

namespace Schedule

/-- By induction on the schedule: each step starts from the kernel that the step before has built. -/
theorem replayFrom_valid {s : Schedule} {index : Nat} (hp : p.problems (some c.find?) = [])
    (hlin : ∀ e ∈ (s.replayFrom c index p).trace, e.kernel.body.Linear) :
    (∀ e ∈ (s.replayFrom c index p).trace, e.kernel.problems (some c.find?) = []) ∧
      ∀ f, (s.replayFrom c index p).failed = some f → f.step ≠ .simplify := by
  induction s generalizing index p with
  | nil => exact ⟨fun _ he => (nomatch he), fun _ hf => nomatch hf⟩
  | cons step rest ih =>
    unfold replayFrom at hlin ⊢
    cases happly : step.apply c p with
    | error failure =>
      refine ⟨fun _ he => (nomatch he), fun f hf => ?_⟩
      obtain rfl := Option.some.inj hf
      rintro rfl
      rw [Step.apply_simplify hp] at happly
      cases happly
    | ok kernel =>
      simp only [happly] at hlin
      obtain ⟨hkernel, hrest⟩ := List.forall_mem_cons.1 hlin
      have hvalid := Step.problems_apply hp happly hkernel
      obtain ⟨htrace, hfailed⟩ := ih hvalid hrest
      exact ⟨List.forall_mem_cons.2 ⟨hvalid, htrace⟩, hfailed⟩

/-- **Call contracts survive every step.** Where a kernel is well formed with a catalog, so is what
any step makes of it, as long as the bounds of all windows still have a difference. Simplification
never fails then. So all kernels along a schedule are well formed with the catalog, and a step that
is refused is no simplification. -/
theorem kernels_stay_valid (c : Catalog) {p : Proc} (hp : p.problems (some c.find?) = []) :
    (∀ step q, Step.apply c p step = .ok q → q.body.Linear → q.problems (some c.find?) = []) ∧
    Step.simplify.apply c p = .ok p.simplify ∧ p.simplify.problems (some c.find?) = [] ∧
    ∀ s : Schedule, (∀ e ∈ (s.replay c p).trace, e.kernel.body.Linear) →
      (∀ e ∈ (s.replay c p).trace, e.kernel.problems (some c.find?) = []) ∧
      ∀ f, (s.replay c p).failed = some f → f.step ≠ .simplify :=
  ⟨fun _ _ hq hlin => Step.problems_apply hp hq hlin, Step.apply_simplify hp,
    Proc.problems_simplify hp, fun _ hlin => replayFrom_valid hp hlin⟩

end Schedule

/-- Clear eight elements. -/
def clearEight : Proc where
  name := "clear"
  params := [.buffer ⟨"dst", .f32, [.int 8], .dram⟩]
  body := [.loop ⟨"i", .int 8, .seq⟩ [.store .set "dst" [.var "i"] (.int 0)]]
  instr := some "clear"

/-- Clear three rows of eight elements, one every `stride`. -/
def clearRows (stride : Word) : Proc where
  name := "clear_rows"
  params := [.buffer ⟨"D", .f32, [.int 24], .dram⟩]
  body := [.loop ⟨"v", .int 3, .seq⟩ [.call "clear" [⟨"D",
    [.interval (.mul (.int stride) (.var "v")) (.add (.mul (.int stride) (.var "v")) (.int 8))]⟩]]]

/-- The same with the loop unrolled. -/
def clearRowsUnrolled (stride : Word) : Proc :=
  let clear (k : Word) : Stmt := .call "clear" [⟨"D",
    [.interval (.mul (.int stride) (.int k)) (.add (.mul (.int stride) (.int k)) (.int 8))]⟩]
  { clearRows stride with body := [clear 0, clear 1, clear 2] }

/-- Clear rows with constant bounds. -/
def clearRowsAt (stride : Word) (bounds : List (Word × Word)) : Proc :=
  { clearRows stride with
    body := bounds.map fun b => .call "clear" [⟨"D", [.interval (.int b.1) (.int b.2)]⟩] }

theorem clearRows_unroll (c : Catalog) (stride : Word) :
    (Step.unroll "v").apply c (clearRows stride) = .ok (clearRowsUnrolled stride) := by
  cbv

/-- There is nothing to simplify in constant bounds. -/
theorem clearRowsAt_simplifyRounds (stride : Word) (bounds : List (Word × Word)) (n : Nat) :
    (clearRowsAt stride bounds).simplifyRounds n = clearRowsAt stride bounds := by
  have hsimplify : ∀ rs, Stmt.simplifyAll rs [] (clearRowsAt stride bounds).body =
      (clearRowsAt stride bounds).body := by
    intro rs
    induction bounds with
    | nil => rfl
    | cons b bounds ih => exact congrArg (List.cons _) ih
  have hdrop : dropDead [] (clearRowsAt stride bounds).body = (clearRowsAt stride bounds).body := by
    clear hsimplify
    induction bounds with
    | nil => rfl
    | cons b bounds ih => exact congrArg (List.cons _) ih
  induction n with
  | zero => rfl
  | succ n ih =>
    rw [Proc.simplifyRounds, Block.simplify, hsimplify, hdrop]
    exact ih

theorem clearRowsUnrolled_simplify {stride : Word} {bounds : List (Word × Word)}
    (h : (clearRowsUnrolled stride).body.simplify ⟨[], []⟩ = (clearRowsAt stride bounds).body) :
    (clearRowsUnrolled stride).simplify = clearRowsAt stride bounds := by
  have hsizes : (clearRowsUnrolled stride).sizes = [] := rfl
  have hround : { clearRowsUnrolled stride with body := (clearRowsAt stride bounds).body } =
    clearRowsAt stride bounds := rfl
  rw [Proc.simplify, Proc.simplifyRounds, hsizes, h, hround, clearRowsAt_simplifyRounds]

/-- Rows that lie side by side stay well formed when their loop is unrolled and all is simplified. -/
theorem clearRows_stay_valid :
    let c : Catalog := ⟨[clearEight]⟩
    let q := clearRowsAt 8 [(0, 8), (8, 16), (16, 24)]
    let r := Schedule.replay [.unroll "v", .simplify] c (clearRows 8)
    (clearRows 8).problems (some c.find?) = [] ∧
      r.trace = [⟨.unroll "v", clearRowsUnrolled 8⟩, ⟨.simplify, q⟩] ∧
      (∀ e ∈ r.trace, e.kernel.body.Linear) ∧
      ∀ e ∈ r.trace, e.kernel.problems (some c.find?) = [] := by
  intro c q r
  have hvalid : (clearRows 8).problems (some c.find?) = [] := by cbv
  have hunrolled : (clearRowsUnrolled 8).problems (some c.find?) = [] := by cbv
  have hsimple : (clearRowsUnrolled 8).simplify = q := clearRowsUnrolled_simplify (by cbv)
  have htrace : r.trace = [⟨.unroll "v", clearRowsUnrolled 8⟩, ⟨.simplify, q⟩] := by
    simp only [r, Schedule.replay, Schedule.replayFrom, clearRows_unroll,
      Step.apply_simplify hunrolled, hsimple]
  have hlin : ∀ e ∈ r.trace, e.kernel.body.Linear := by
    rw [htrace, List.forall_mem_cons, List.forall_mem_singleton]
    exact ⟨by decide, by decide⟩
  exact ⟨hvalid, htrace, hlin, ((Schedule.kernels_stay_valid c hvalid).2.2.2 _ hlin).1⟩

/-- Bounds that are forms are not enough: the lower bound of the last row is the least word, and its
negation overflows. -/
theorem clearRows_far_apart :
    let c : Catalog := ⟨[clearEight]⟩
    let stride : Word := -4611686018427387904
    let last : Expr := .mul (.int stride) (.int 2)
    (clearRows stride).problems (some c.find?) = [] ∧
      (Step.unroll "v").apply c (clearRows stride) = .ok (clearRowsUnrolled stride) ∧
      (∀ s ∈ (clearRowsUnrolled stride).body.nested, ∀ w ∈ s.windows, ∀ i ∈ w.intervals,
        (Affine.ofExpr? i.1).isSome ∧ (Affine.ofExpr? i.2).isSome) ∧
      (clearRowsUnrolled stride).problems (some c.find?) =
        [⟨.variableExtent last (.add last (.int 8)), some [2]⟩] ∧
      Step.simplify.apply c (clearRowsUnrolled stride) = .error (.refused (.invalid
        ⟨.variableExtent (.int (-9223372036854775808)) (.int (-9223372036854775800)), some [2]⟩)) := by
  intro c stride last
  have hsimple : (clearRowsUnrolled stride).simplify = clearRowsAt stride [(0, 8),
      (-4611686018427387904, -4611686018427387896),
      (-9223372036854775808, -9223372036854775800)] := clearRowsUnrolled_simplify (by cbv)
  refine ⟨?_, clearRows_unroll c _, ?_, ?_, ?_⟩
  · cbv
  · decide
  · cbv
  · rw [Step.apply, hsimple]
    cbv

end LoopNest
