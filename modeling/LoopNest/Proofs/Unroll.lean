import LoopNest.Proofs.Contract.Reword
import LoopNest.Proofs.Contract.Steps
import LoopNest.Proofs.Enlarge
import LoopNest.Proofs.Reached
import LoopNest.Proofs.Trace.Substitute

/-!
# Unrolling a loop

A copy of a loop's body is the body in other words (`Proc.Wording`): the number of the iteration
stands for the variable, and what the body allocates has names that nothing else in the kernel has.
The allocations of a copy stay visible to the end of the block that held the loop, and no later name
collides with them.

So the copies are well scoped where the loop was, and a copy does what its round did, to tensors that
may have got other numbers. Unrolling a loop of a valid kernel never fails if the number of rounds is
constant, the new kernel is valid, and its runs have the same results (`Proc.exists_unroll`).
-/

namespace LoopNest

open Exec Stmt Block

variable {visible : String → Prop} {acts : List Action}

/-! ## The words of a copy -/

namespace Proc

/-- The allocations `allocs` get names that are not yet taken, different ones, and that is all that
changes. The names in `taken` are taken before it and those in `taken'` after it. -/
structure Renaming (allocs taken taken' : List String) (g : Expr → Expr) (r : String → String) :
    Prop where
  rebuilds : Expr.Rebuilds g r
  var : ∀ x, g (.var x) = .var x
  same : ∀ x ∉ allocs, r x = x
  new : ∀ x ∈ allocs, r x ∉ taken ∧ r x ∈ taken'
  inj : ∀ x ∈ taken, ∀ y ∈ taken, r x = r y → x = y
  grows : ∀ x ∈ taken, x ∈ taken'

/-- Renaming the allocations of a copy one after the other is renaming all of them. -/
theorem exists_renaming (k : Nat) {allocs taken : List String} (body : Block)
    (hsub : ∀ x ∈ allocs, x ∈ taken) :
    ∃ g r, Renaming allocs taken (renameCopy k allocs taken body).1 g r ∧
      (renameCopy k allocs taken body).2 = body.reword g r := by
  induction allocs generalizing taken body with
  | nil =>
    exact ⟨id, id, ⟨.refl, fun _ => rfl, fun _ _ => rfl, nofun, fun _ _ _ _ => id, fun _ => id⟩,
      body.reword_id.symm⟩
  | cons name allocs ih =>
    obtain ⟨hname, hsub⟩ := List.forall_mem_cons.1 hsub
    let fresh := freshName taken (name ++ "_" ++ toString k)
    let swap (n : String) : String := if n = name then fresh else n
    have hfresh : fresh ∉ taken := freshName_not_mem _ _
    obtain ⟨g, r, h, hcopy⟩ := ih (body.renameBuffer name fresh) fun x hx =>
      List.mem_cons_of_mem fresh (hsub x hx)
    -- the new name is not renamed again
    have hstays : r fresh = fresh := h.same fresh fun hmem => hfresh (hsub fresh hmem)
    have hself : (r ∘ swap) name = fresh := by simp [swap, hstays]
    have hother : ∀ x, x ≠ name → (r ∘ swap) x = r x := fun x hx => by simp [swap, hx]
    have hapart : ∀ y ∈ taken, y ≠ name → r y ≠ fresh := by
      intro y hy hne heq
      by_cases hmem : y ∈ allocs
      · exact (h.new y hmem).1 (heq ▸ (.head _))
      · have hy' : y = fresh := (h.same y hmem).symm.trans heq
        exact hfresh (hy' ▸ hy)
    refine ⟨g ∘ Expr.renameBuffer name fresh, r ∘ swap, ⟨?_, ?_, ?_, ?_, ?_, ?_⟩, ?_⟩
    · exact h.rebuilds.comp (.rebuild .var swap)
    · exact h.var
    · intro x hx
      obtain ⟨hne, hmem⟩ := not_or.1 (mt List.mem_cons.2 hx)
      rw [hother x hne, h.same x hmem]
    · intro x hx
      by_cases hxn : x = name
      · rw [hxn, hself]
        exact ⟨hfresh, h.grows fresh (.head _)⟩
      · rw [hother x hxn]
        obtain ⟨hnew, hin⟩ := h.new x ((List.mem_cons.1 hx).resolve_left hxn)
        exact ⟨fun hmem => hnew (.tail _ hmem), hin⟩
    · intro x hx y hy hxy
      by_cases hxn : x = name
      · by_cases hyn : y = name
        · rw [hxn, hyn]
        · rw [hxn, hself, hother y hyn] at hxy
          exact absurd hxy.symm (hapart y hy hyn)
      · by_cases hyn : y = name
        · rw [hyn, hself, hother x hxn] at hxy
          exact absurd hxy (hapart x hx hxn)
        · rw [hother x hxn, hother y hyn] at hxy
          exact h.inj x (.tail _ hx) y (.tail _ hy) hxy
    · exact fun x hx => h.grows x (.tail _ hx)
    · refine hcopy.trans ?_
      exact reword_reword (Expr.renameBuffer name fresh) g swap r body

/-- The number of the iteration for the variable, and then the new names. -/
def wordCopy (g : Expr → Expr) (var : String) (k : Nat) : Expr → Expr :=
  g ∘ (·.substVar var (.int (Int64.ofNat k)))

theorem copies_succ (var : String) {allocs taken : List String} (body : Block) (n k : Nat)
    (hsub : ∀ x ∈ allocs, x ∈ taken) :
    ∃ taken' g r, Renaming allocs taken taken' g r ∧
      copies var allocs body (n + 1) k taken =
        body.reword (wordCopy g var k) r ++ copies var allocs body n (k + 1) taken' := by
  obtain ⟨g, r, h, hcopy⟩ := exists_renaming k (body.substVar var (.int (Int64.ofNat k))) hsub
  refine ⟨_, g, r, h, congrArg (· ++ _) (hcopy.trans ?_)⟩
  rw [substVar_eq_reword, reword_reword]
  rfl

namespace Renaming

variable {allocs taken taken' : List String} {g : Expr → Expr} {r : String → String}

theorem wordCopy_var (h : Renaming allocs taken taken' g r) (var : String) (k : Nat) (x : String) :
    wordCopy g var k (.var x) = if x = var then .int (Int64.ofNat k) else .var x := by
  have hsubst : (Expr.var x).substVar var (.int (Int64.ofNat k)) =
      if x = var then .int (Int64.ofNat k) else .var x := rfl
  show g ((Expr.var x).substVar var _) = _
  rw [hsubst]
  split
  · exact h.rebuilds.int _
  · exact h.var x

theorem rebuilds_wordCopy (h : Renaming allocs taken taken' g r) (var : String) (k : Nat) :
    Expr.Rebuilds (wordCopy g var k) r :=
  h.rebuilds.comp (s := r) (r := id) (.rebuild _ id)

/-- Names that were taken before keep apart. -/
theorem renames (h : Renaming allocs taken taken' g r) {names : List String}
    (hsub : ∀ x ∈ names, x ∈ taken) : Renames (· ∈ names) r  where
  inj {x y} hx hy hxy := h.inj x (hsub x hx) y (hsub y hy) hxy
  out {x} _ hrx := by
    by_cases hmem : x ∈ allocs
    · exact absurd (hsub _ hrx) (h.new x hmem).1
    · exact h.same x hmem

end Renaming

end Proc

/-! ## Copies in scope -/

/-- A copy declares new names only. -/
theorem Block.mem_declared_reword {f : Expr → Expr} {r : String → String} {b : Block} {x : String}
    (hx : x ∈ (b.reword f r).flatMap (·.declared)) : ∃ y ∈ b.allocated, x = r y := by
  have hallocated : (b.reword f r).allocated = b.allocated.map r :=
    (moves_reword f r).allocated_mapAll b
  have hdeclared : ∀ b : Block, x ∈ b.flatMap (·.declared) → x ∈ b.allocated := by
    intro b hx
    induction b with
    | nil => exact hx
    | cons s rest ih =>
      rw [List.flatMap_cons, List.mem_append] at hx
      rw [allocated_cons, List.mem_append, List.mem_append]
      exact hx.imp_right fun hx => .inr (ih hx)
  have hx := hdeclared _ hx
  rw [hallocated] at hx
  obtain ⟨y, hy, rfl⟩ := List.mem_map.1 hx
  exact ⟨y, hy, rfl⟩

/-- The second scope has other names too, all of them taken, and is the same on `names`. -/
structure Scope.Widens (names taken : List String) (sc sc' : Scope) : Prop where
  index : ∀ x ∈ names, sc'.isIndex x = sc.isIndex x
  buffer : ∀ x ∈ names, sc'.buffer? x = sc.buffer? x
  visible : ∀ x ∈ names, sc'.isVisible x = sc.isVisible x
  taken : ∀ x, sc'.isVisible x = true → x ∈ taken

namespace Scope.Widens

variable {names taken taken' : List String} {sc sc' : Scope}

/-- Behind a block that declares other names. -/
theorem afterAll (h : sc.Widens names taken sc') (hsub : ∀ x ∈ taken, x ∈ taken') {b : Block}
    (hb : ∀ x ∈ b.flatMap (·.declared), x ∉ names ∧ x ∈ taken') :
    sc.Widens names taken' (sc'.afterAll b) := by
  induction b generalizing sc' taken with
  | nil => exact ⟨h.index, h.buffer, h.visible, fun x hx => hsub x (h.taken x hx)⟩
  | cons s rest ih =>
    rw [List.flatMap_cons, List.forall_mem_append] at hb
    suffices hs : sc.Widens names taken' (sc'.after s) from ih hs (fun _ => id) hb.2
    have hstays : sc.Widens names taken' sc' :=
      ⟨h.index, h.buffer, h.visible, fun x hx => hsub x (h.taken x hx)⟩
    cases s with
    | alloc d =>
      obtain ⟨hout, hin⟩ := hb.1 d.name (by simp [declared, decl?])
      have hne : ∀ x ∈ names, d.name ≠ x := fun x hx heq => hout (heq ▸ hx)
      refine ⟨hstays.index, fun x hx => ?_, fun x hx => ?_, fun x hx => ?_⟩
      · rw [after, buffer?_addBuffer, if_neg (hne x hx), hstays.buffer x hx]
      · rw [← hstays.visible x hx, Bool.eq_iff_iff]
        exact (sc'.isVisible_addBuffer d x).trans (or_iff_right (hne x hx).symm)
      · obtain rfl | hx := (sc'.isVisible_addBuffer d x).1 hx
        · exact hin
        · exact hstays.taken x hx
    | _ => exact hstays

/-- The rest of the block keeps its words. -/
theorem reworded (h : sc.Widens names taken sc') (hknown : ∀ x, sc.isVisible x = true → x ∈ names) :
    sc.Reworded id id (· ∈ names) sc' where
  known {x} hx := hknown x hx
  index {x} hx := by
    have hmem := hknown x (isVisible_of_isIndex hx)
    exact .inr ⟨rfl, (h.index x hmem).trans hx, fun hnone => (h.buffer x hmem).trans hnone⟩
  buffer {x d} hd := ⟨d, (h.buffer x (hknown x (isVisible_of_buffer? hd))).trans hd, rfl⟩
  hidden {x} hx hnone := ⟨(h.visible x hx).trans hnone, (h.visible x hx).trans hnone⟩

/-- The words of a copy mean what those of the body meant in the scope of the loop's variable. -/
theorem reworded_copy (h : sc.Widens names taken sc')
    (hknown : ∀ x, sc.isVisible x = true → x ∈ names) {var : String} (hvar : var ∈ names)
    {allocs : List String} (hallocs : ∀ x ∈ allocs, sc.isVisible x = false) {g : Expr → Expr}
    {r : String → String} (hr : Proc.Renaming allocs taken taken' g r) (k : Nat) :
    (sc.addVar var).Reworded (Proc.wordCopy g var k) r (· ∈ names) sc' where
  known {x} hx := ((sc.isVisible_addVar var x).1 hx).elim (fun heq => heq ▸ hvar) (hknown x)
  index {x} hx := by
    rw [hr.wordCopy_var var k x]
    by_cases hxv : x = var
    · exact .inl ⟨_, if_pos hxv⟩
    · have hx := ((sc.isIndex_addVar var x).1 hx).resolve_left hxv
      have hmem := hknown x (isVisible_of_isIndex hx)
      refine .inr ⟨if_neg hxv, (h.index x hmem).trans hx, fun hnone => ?_⟩
      exact (h.buffer x hmem).trans hnone
  buffer {x d} hd := by
    have hd : sc.buffer? x = some d := hd
    have hvisible := isVisible_of_buffer? hd
    have hnot : x ∉ allocs := fun hmem => by simp [hallocs x hmem] at hvisible
    refine ⟨d, ?_, rfl⟩
    rw [hr.same x hnot, h.buffer x (hknown x hvisible), hd]
  hidden {x} hx hnone := by
    have hnone := (isVisible_eq_false_of_addVar.1 hnone).2
    have hsame := (h.visible x hx).trans hnone
    refine ⟨hsame, ?_⟩
    by_cases hmem : x ∈ allocs
    · rw [← Bool.not_eq_true]
      exact fun hv => (hr.new x hmem).1 (h.taken _ hv)
    · rwa [hr.same x hmem]

end Scope.Widens

/-- What the names in a loop have to do with those of the kernel, and those visible outside. -/
structure Header.Fresh (names : List String) (visible : String → Prop) (h : Header) (body : Block) :
    Prop where
  known : ∀ x, visible x → x ∈ names
  var : h.var ∈ names
  binders : ∀ x ∈ body.binders, x ∈ names ∧ x ≠ h.var ∧ ¬visible x

/-- A copy is the body in other words. -/
theorem Proc.Renaming.turns_copy {allocs taken taken' names : List String} {g : Expr → Expr}
    {r : String → String} (hr : Renaming allocs taken taken' g r) {h : Header} {body : Block}
    (hfresh : h.Fresh names visible body) (hsub : ∀ x ∈ names, x ∈ taken) (k : Nat) :
    (Rewording.mapping (wordCopy g h.var k) r (· ∈ names)).Turns body
      (body.reword (wordCopy g h.var k) r) := by
  refine Rewording.mapping_turns (hr.rebuilds_wordCopy h.var k) fun x hx => ?_
  obtain ⟨hmem, hne, -⟩ := hfresh.binders x hx
  refine Rewording.mapping_binds (hr.renames hsub) hmem (by rw [hr.wordCopy_var, if_neg hne])
    fun y z hz => ?_
  rw [hr.wordCopy_var] at hz
  split at hz
  · simp at hz
  · simpa using hz

/-- **Copies are well scoped** where the loop was, and so is the rest of the block behind them. -/
theorem Proc.wellScopedAll_copies {names taken : List String} {sc sc' : Scope} {h : Header}
    {body rest : Block} (hfresh : h.Fresh names (sc.isVisible · = true) body)
    (hbody : WellScopedAll none (sc.addVar h.var) body) (hrest : WellScopedAll none sc rest)
    (hrestnames : ∀ x ∈ rest.binders, x ∈ names) (n k : Nat) (hwide : sc.Widens names taken sc')
    (hsub : ∀ x ∈ names, x ∈ taken) :
    WellScopedAll none sc' (copies h.var (sortedNames body.allocated) body n k taken ++ rest) := by
  have hallocs : ∀ x ∈ sortedNames body.allocated, x ∈ body.binders := fun x hx =>
    mem_binders_of_allocated (mem_sortedNames.1 hx)
  induction n generalizing k taken sc' with
  | zero =>
    have hr : Renames (· ∈ names) id := ⟨fun _ _ => id, fun _ _ => rfl⟩
    have hturns := Rewording.mapping_turns .refl fun x hx =>
      Rewording.mapping_binds hr (hrestnames x hx) rfl (by simp)
    rw [reword_id] at hturns
    exact (hturns.wellScoped (Rewording.mapping_scoped .refl hr) (hwide.reworded hfresh.known) hrest).1
  | succ n ih =>
    obtain ⟨taken', g, r, hr, hcopies⟩ := copies_succ h.var body n k fun x hx =>
      hsub x (hfresh.binders x (hallocs x hx)).1
    rw [hcopies, List.append_assoc]
    have hcopy := (hr.turns_copy hfresh hsub k).wellScoped
      (Rewording.mapping_scoped (hr.rebuilds_wordCopy h.var k) (hr.renames hsub))
      (hwide.reworded_copy hfresh.known hfresh.var
        (fun x hx => Bool.not_eq_true _ ▸ (hfresh.binders x (hallocs x hx)).2.2) hr k) hbody
    refine wellScopedAll_append.2 ⟨hcopy.1, ih (k + 1) (hwide.afterAll hr.grows fun x hx => ?_)
      fun x hx => hr.grows x (hsub x hx)⟩
    obtain ⟨y, hy, rfl⟩ := mem_declared_reword hx
    obtain ⟨hnew, hin⟩ := hr.new y (mem_sortedNames.2 hy)
    exact ⟨fun hmem => hnew (hsub _ hmem), hin⟩

/-! ## Copies in a run -/

/-- The second state is the first one after some copies: more tensors stand behind those of the first
state, and the names that are bound to them are not in `names`. -/
structure Unrolled {α : Type} (names : List String) (env : Env) (st : Store α) (env' : Env)
    (st' : Store α) : Prop where
  kept : ∀ x ∈ names, env'.lookup x = env.lookup x
  store : ∃ ext, st' = st ++ ext

namespace Unrolled

variable {α : Type} [Element α] {c : Catalog} {names : List String} {h : Header} {body : Block}
  {env env' : Env} {st st' : Store α}
variable {taken taken' : List String} {g : Expr → Expr} {r : String → String}

omit [Element α] in
/-- The words of a copy mean what those of the body meant in the round. -/
theorem reworded (hu : Unrolled names env st env' st')
    (hfresh : h.Fresh names (fun x => (env.lookup x).isSome) body)
    (hlt : env.ViewsBelow st.length)
    (hr : Proc.Renaming (sortedNames body.allocated) taken taken' g r) (k m : Nat) :
    (env.turn h k).Reworded (.seats (Seat.raised st.length m))
      (Proc.wordCopy g h.var k) r (· ∈ names) env' where
  known {x} hx := by
    rw [Env.lookup_bind] at hx
    split at hx
    next heq => exact heq ▸ hfresh.var
    · exact hfresh.known x hx
  value {x n} hx := by
    rw [Env.value?_bind] at hx
    rw [hr.wordCopy_var]
    by_cases hxv : x = h.var
    · rw [if_pos hxv] at hx
      cases hx
      rw [if_pos hxv]
      exact Simulation.stands_int _ _ _
    · rw [if_neg hxv] at hx ⊢
      have hsome : (env.lookup x).isSome := by rw [Env.value?_eq_some.1 hx]; rfl
      refine Simulation.stands_var ?_
      rw [Env.value?, hu.kept x (hfresh.known x hsome)]
      exact hx
  view {x v} hv := by
    have hv := (Env.view?_bind_index.1 hv).2
    have hsome : (env.lookup x).isSome := by rw [Env.view?_eq_some.1 hv]; rfl
    -- what is allocated in the body is not visible outside, so the name is no new one
    have hnot : x ∉ sortedNames body.allocated := fun hmem => by
      exact (hfresh.binders x (mem_binders_of_allocated (mem_sortedNames.1 hmem))).2.2 hsome
    refine ⟨v, ?_, ?_⟩
    · rw [hr.same x hnot, Env.view?, hu.kept x (hfresh.known x hsome)]
      exact hv
    · change (Seat.raised st.length m v.tensor).Shows v v
      rw [Seat.raised_of_lt (hlt x v hv)]
      exact Seat.shows_whole rfl rfl

/-- **A copy does what its round did**, and leaves more tensors behind. -/
theorem copy (hu : Unrolled names env st env' st')
    (hfresh : h.Fresh names (fun x => (env.lookup x).isSome) body)
    (hlt : env.ViewsBelow st.length) (hsub : ∀ x ∈ names, x ∈ taken)
    (hr : Proc.Renaming (sortedNames body.allocated) taken taken' g r) {k : Nat} {e : Env}
    (ht : c.traceAll (env.turn h k) st.layout body = some (acts, e)) :
    ∃ acts' e', c.traceAll env' st'.layout
        (body.reword (Proc.wordCopy g h.var k) r) = some (acts', e') ∧
      Unrolled names env (perform (scope st.layout acts) st) e' (perform acts' st') := by
  obtain ⟨ext, rfl⟩ := hu.store
  have hlay : Store.layout (st ++ ext) = st.layout ++ Store.layout ext := by simp [Store.layout]
  have hseats : Seats (Seat.raised st.length ext.length) st.layout (Store.layout (st ++ ext)) := by
    rw [hlay, ← Store.length_layout st, ← Store.length_layout ext]
    exact .raised _ _
  have hturns := hr.turns_copy hfresh hsub k
  have hsound := Rewording.mapping_sound (S := .seats (Seat.raised st.length ext.length))
    (hr.rebuilds_wordCopy h.var k) (hr.renames hsub) fun x shape hρ => hρ.shows_next x (r x) shape
  obtain ⟨acts', e', ht', htake⟩ := hturns.take_perform hsound c.calls_closed c.calls_seated hseats
    ((Seated.refl _ st).raised .refl _ ext) (hu.reworded hfresh hlt hr k ext.length)
    (fun i => Seat.raised_of_lt) .refl ht
  refine ⟨acts', e', ht', fun x hx => ?_, (perform acts' (st ++ ext)).drop st.length, ?_⟩
  · obtain ⟨-, hlook⟩ | ⟨hdeclared, -⟩ := lookup_of_traceAll c.calls_closed ht' x
    · rw [hlook, hu.kept x hx]
    · obtain ⟨y, hy, rfl⟩ := mem_declared_reword hdeclared
      exact absurd (hsub _ hx) (hr.new y (mem_sortedNames.2 hy)).1
  · rw [perform_scope, ← htake, List.take_append_drop]

/-- **Copies do what the rounds did**, one after the other. -/
theorem copies (hu : Unrolled names env st env' st')
    (hfresh : h.Fresh names (fun x => (env.lookup x).isSome) body) {lay : Layout}
    (hlt : env.ViewsBelow lay.length) {acts : Nat → List Action}
    (n k : Nat) (hsub : ∀ x ∈ names, x ∈ taken) (hlay : st.layout = lay)
    (ht : ∀ j, k ≤ j → j < k + n → ∃ e, c.traceAll (env.turn h j) lay body = some (acts j, e)) :
    ∃ acts' e', c.traceAll env' st'.layout
        (Proc.copies h.var (sortedNames body.allocated) body n k taken) = some (acts', e') ∧
      Unrolled names env (perform ((List.range' k n).flatMap fun j => scope lay (acts j)) st) e'
        (perform acts' st') := by
  induction n generalizing k taken env' st st' with
  | zero => exact ⟨[], env', traceAll_nil.2 rfl, hu⟩
  | succ n ih =>
    obtain ⟨taken', g, r, hr, hcopies⟩ := Proc.copies_succ h.var body n k fun x hx =>
      hsub x (hfresh.binders x (mem_binders_of_allocated (mem_sortedNames.1 hx))).1
    obtain ⟨e, he⟩ := ht k (Nat.le_refl k) (by omega)
    subst hlay
    obtain ⟨a, e₁, ha, hu₁⟩ := hu.copy hfresh (Store.length_layout st ▸ hlt) hsub hr he
    have hclosed : (perform (scope st.layout (acts k)) st).layout = st.layout := by
      rw [layout_perform, (scope_traceAll_closes c.calls_closed he).after]
    obtain ⟨a', e₂, ha', hu₂⟩ := ih hu₁ (k + 1) (fun x hx => hr.grows x (hsub x hx)) hclosed
      fun j hj hj' => ht j (by omega) (by omega)
    rw [layout_perform] at ha'
    refine ⟨a ++ a', e₂, ?_, ?_⟩
    · rw [hcopies]
      exact traceAll_append.2 ⟨a, e₁, a', e₂, ha, ha', rfl⟩
    · rw [List.range'_succ, List.flatMap_cons, perform_append, perform_append]
      exact hu₂

end Unrolled

/-! ## Kernels -/

theorem Header.Fresh.of_wellScopedAll {templates : Scope.Templates} {sc : Scope} {h : Header}
    {body rest : Block} (hscope : WellScopedAll templates sc (.loop h body :: rest))
    {names : List String} (hnames : ∀ x ∈ Block.binders (.loop h body :: rest), x ∈ names)
    (hknown : ∀ x, visible x → x ∈ names) (hvisible : ∀ x, visible x → sc.isVisible x = true) :
    h.Fresh names visible body := by
  have hmem : ∀ x, x = h.var ∨ x ∈ body.binders → x ∈ names := by
    intro x hx
    refine hnames x ?_
    rw [binders_cons, List.mem_append]
    exact .inl (List.mem_cons.2 hx)
  refine ⟨hknown, hmem _ (.inl rfl), fun x hx => ⟨hmem x (.inr hx), ?_⟩⟩
  have hhidden := hscope.1.2.isVisible_eq_false hx
  obtain ⟨hne, hnone⟩ := Scope.isVisible_eq_false_of_addVar.1 hhidden
  exact ⟨hne, fun h => by simp [hvisible x h] at hnone⟩

section kernel

variable {p : Proc} {templates : Scope.Templates} {path : Path} {h : Header} {body rest b : Block}
  {n : Word}

/-- The kernel with the copies in the place of the loop is valid. -/
theorem Proc.problems_copies (hvalid : p.problems templates = [])
    (hrecast : Recast (.loop h body :: rest)
      (copies h.var (sortedNames body.allocated) body n.toInt.toNat 0 p.boundNames ++ rest) path
      p.body b) : { p with body := b }.problems none = [] := by
  have hbinders : ∀ x ∈ Block.binders (.loop h body :: rest), x ∈ p.boundNames := fun x hx =>
    List.mem_append_right _ (hrecast.mem_binders hx)
  obtain ⟨hparams, hscope⟩ := Proc.problems_eq_nil.1 (problems_none hvalid)
  obtain ⟨sc, hleads⟩ := hrecast.exists_leads p.scope
  have hplace := hleads.old none hscope
  have hknown : ∀ x, sc.isVisible x = true → x ∈ p.boundNames := fun x hx =>
    List.mem_append.2 ((hleads.visible x hx).imp_left (p.isVisible_scope x).1)
  have hrest : ∀ x ∈ rest.binders, x ∈ p.boundNames := by
    intro x hx
    refine hbinders x ?_
    rw [binders_cons]
    exact List.mem_append_right _ hx
  refine Proc.problems_eq_nil.2 ⟨hparams, hleads.put none hscope ?_⟩
  exact wellScopedAll_copies (.of_wellScopedAll hplace hbinders hknown fun _ => id) hplace.1.2
    hplace.2 hrest _ _ ⟨fun _ _ => rfl, fun _ _ => rfl, fun _ _ => rfl, hknown⟩ fun _ => id

/-- Wherever the run comes to the loop, the copies lead into a larger state. -/
theorem Proc.Reaches.copies {α : Type} [Element α] {c : Catalog} {args : Args α} {env : Env}
    {st : Store α} (hreach : p.Reaches c args path env st) (hvalid : p.problems templates = [])
    (hfrom : p.body.from? path = some (.loop h body :: rest))
    (hnames : ∀ x ∈ Block.binders (.loop h body :: rest), x ∈ p.boundNames)
    (hn : h.bound.constant? = some n)
    (ht : (Stmt.loop h body).trace .checked c c.calls env st.layout = some (acts, env)) :
    ∃ acts' e', c.traceAll env st.layout
        (Proc.copies h.var (sortedNames body.allocated) body n.toInt.toNat 0 p.boundNames) =
          some (acts', e') ∧
      Enlarges st.length env (perform acts st) e' (perform acts' st) := by
  obtain ⟨sc, seen, _, hfrom', hscope, hfits, htidy⟩ := hreach.fits hvalid
  obtain rfl := Option.mem_unique hfrom hfrom'
  have hknown : ∀ x, (env.lookup x).isSome → x ∈ p.boundNames := by
    intro x hx
    by_contra hnot
    simp [hreach.lookup_eq_none hnot] at hx
  have hfresh : h.Fresh p.boundNames (fun x => (env.lookup x).isSome) body :=
    .of_wellScopedAll hscope hnames hknown hfits.visible
  obtain ⟨m, g, hm, hg, ⟨⟩⟩ := trace_loop.1 ht
  have hrounds : m.toInt = n.toInt := Expr.wide?_of_constant? hn (Evaluator.checked.to_wide hm)
  rw [hrounds] at hg ⊢
  have hstart : Unrolled p.boundNames env st env st :=
    ⟨fun _ _ => rfl, [], (List.append_nil st).symm⟩
  obtain ⟨acts', e', hacts', hu⟩ := hstart.copies hfresh htidy.plain.lt n.toInt.toNat 0
    (fun _ => id) rfl fun j _ hj => hg j (by omega)
  refine ⟨acts', e', hacts', ?_⟩
  rw [← List.range_eq_range'] at hu
  obtain ⟨ext, hext⟩ := hu.store
  have hlen : (perform ((List.range n.toInt.toNat).flatMap fun k =>
      LoopNest.scope st.layout (g k)) st).length = st.length := by
    rw [← Store.length_layout, layout_rounds c.calls_closed hg, Store.length_layout]
  have hlarge := Enlarges.of_append (fun x hx => hu.kept x (hknown x hx))
    (hlen.symm ▸ Store.length_layout st ▸ htidy.plain.lt) ext
  rwa [← hext, hlen] at hlarge

end kernel

/-- **Unrolling keeps validity and results.** A loop of a valid kernel with a constant number of
rounds can be unrolled. The new kernel is valid, also together with the templates that it calls if
the extents of its windows can be computed, and where the run of the old one ends well, that of the
new one does, with the same tensors. -/
theorem Proc.exists_unroll {p : Proc} {templates : Scope.Templates}
    (hvalid : p.problems templates = []) {loop : String} {path : Path} {h : Header} {body : Block}
    (hpick : p.pickLoop loop = .ok (path, h, body)) {n : Word} (hn : h.bound.constant? = some n) :
    ∃ out, p.unroll loop = .ok out ∧ out.problems none = [] ∧
      (∀ find, p.problems (some find) = [] → out.body.Linear → out.problems (some find) = []) ∧
      ∀ {α : Type} [Element α] (c : Catalog) (args : Args α),
        (p.run c args).1 = .ok () → out.run c args = p.run c args := by
  obtain ⟨b, hreplace, hreplaced⟩ := Block.replaced_of_get?
    (copies h.var (sortedNames body.allocated) body n.toInt.toNat 0 p.boundNames)
    (stmt?_of_pickLoop hpick)
  have ⟨rest, hrecast⟩ := hreplaced
  have hout := problems_copies hvalid hrecast
  have hunroll : p.unroll loop = .ok { p with body := b } := by
    refine except_bind_eq_ok.2 ⟨_, hpick, ?_⟩
    simp only [hn, replaceStmt, hreplace]
    exact finish_eq_ok.2 ⟨rfl, hout⟩
  refine ⟨_, hunroll, hout, fun find hp hlin => problems_unroll hp hunroll hlin,
    fun c args hrun => ?_⟩
  refine run_enlarged rfl hreplaced (fun env st acts hreach ht => ?_) hrun
  exact hreach.copies hvalid hrecast.from?
    (fun x hx => List.mem_append_right _ (hrecast.mem_binders hx)) hn ht

/-- Doubles an element through a scalar. -/
def doublingRound : Block := [
  .alloc ⟨"t", .f32, [], .dram⟩,
  .store .set "t" [] (.read "x" [.var "i"]),
  .store .add "x" [.var "i"] (.read "t" [])]

/-- Doubles two elements. One name for a copy of the scalar is taken. -/
def doubling : Proc where
  name := "doubling"
  params := [.buffer ⟨"x", .f32, [.int 2], .dram⟩, .buffer ⟨"t_0", .f32, [], .dram⟩]
  body := [.loop ⟨"i", .int 2, .seq⟩ doublingRound]

/-- The same without the loop. -/
def doublingUnrolled : Proc := { doubling with body := [
  .alloc ⟨"t_0_1", .f32, [], .dram⟩,
  .store .set "t_0_1" [] (.read "x" [.int 0]),
  .store .add "x" [.int 0] (.read "t_0_1" []),
  .alloc ⟨"t_1", .f32, [], .dram⟩,
  .store .set "t_1" [] (.read "x" [.int 1]),
  .store .add "x" [.int 1] (.read "t_1" [])] }

def doublingArgs : Args Float := ⟨[], [("x", ⟨.f32, [2], #[3, 5]⟩), ("t_0", ⟨.f32, [], #[0]⟩)]⟩

theorem doubling_unroll : doubling.unroll "i" = .ok doublingUnrolled := by cbv

theorem doubling_unrolled : doublingUnrolled.problems none = [] ∧
    doublingUnrolled.run {} doublingArgs = doubling.run {} doublingArgs := by
  have hvalid : doubling.problems (some (Catalog.find? {})) = [] := rfl
  have hpick : doubling.pickLoop "i" = .ok ([0], ⟨"i", .int 2, .seq⟩, doublingRound) := rfl
  have hbound : (Expr.int 2).constant? = some 2 := rfl
  obtain ⟨out, hout, hproblems, -, hrun⟩ := Proc.exists_unroll hvalid hpick hbound
  obtain rfl := Except.ok.inj (doubling_unroll.symm.trans hout)
  exact ⟨hproblems, hrun {} doublingArgs rfl⟩

end LoopNest
