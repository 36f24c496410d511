import LoopNest.Proofs.Context
import LoopNest.Step.Fission

/-!
# Cutting scopes keeps results

A loop or a guard is cut into two that run what stands before the cut and what stands after it.

In one round, the part after the cut now runs where the tensors of the part before it are gone
already. It touches none of them, so nothing but the numbers of later tensors changes
(`Stmt.traceAll_cut`). For a loop, all second halves then move behind all first halves; the check asks
that accesses in conflict pin the loop variable, so halves of different rounds are apart
(`Stmt.trace_cutLoop`).
-/

namespace LoopNest

open Stmt

variable {path : Path} {sizes : List String}

/-! ## The part after the cut on its own -/

section cut

variable {c : Catalog} {seen : List String} {env : Env} {lay : Layout} {before after : Block}

/-- The check keeps the buffers allocated right before the cut out of the part after it. -/
theorem of_checkPrivate (h : checkPrivate before after = .ok ()) {x : String}
    (hx : x ∈ before.flatMap (·.declared)) : Block.touches x after = false := by
  unfold checkPrivate at h
  split at h
  · cases h
  next hnone =>
    obtain ⟨s, hs, hxs⟩ := List.mem_flatMap.1 hx
    obtain ⟨d, hd, rfl⟩ := Option.map_eq_some_iff.1 (Option.mem_toList.1 hxs)
    have := List.find?_eq_none.1 hnone d (List.mem_filterMap.2 ⟨s, hs, hd⟩)
    simpa using this

variable {e : Env} {acts : List Action} {s : Stmt} {h : Header}

/-- The environments in which the part after the cut runs, in place and on its own. -/
theorem Stmt.seats_of_traceAll (htidy : env.Tidy seen lay)
    (hb : c.traceAll env lay before = some (acts, e)) {n : Nat}
    (hn : (lay.after acts).length = lay.length + n) :
    e.Seats (Seat.put .whole lay.length n lay.length .gone) (before.flatMap (·.declared)) env := by
  have hlook := lookup_of_traceAll c.calls_closed hb
  rw [hn] at hlook
  refine ⟨⟨fun {x k} hx => ?_, fun {x v} hx hv => ?_⟩, fun {x v} hx hv => ?_⟩
  · obtain ⟨-, hold⟩ | ⟨-, w, hw, -⟩ := hlook x
    · rwa [Env.value?, ← hold]
    · simp [Env.value?, hw] at hx
  · obtain ⟨-, hold⟩ | ⟨hmem, -⟩ := hlook x
    · have hv' : env.view? x = some v := by rwa [Env.view?, ← hold]
      rw [Seat.put_of_lt (htidy.plain.lt x v hv')]
      exact ⟨v, hv', Seat.shows_whole rfl rfl⟩
    · exact absurd hmem hx
  · obtain ⟨hnot, -⟩ | ⟨-, w, hw, hlo, hhi⟩ := hlook x
    · exact absurd hx hnot
    · obtain rfl : w = v := by simpa [Env.view?, hw] using hv
      exact Seat.put_of_mem hlo hhi

/-- **A block cut in two.** The part after the cut has a trace where nothing before it has run, and in
scopes of their own both parts together do what the block does in one. -/
theorem Stmt.traceAll_cut (htidy : env.Tidy seen lay)
    (hfresh : FreshAll seen (before ++ after)) (hcheck : checkPrivate before after = .ok ())
    (ht : c.traceAll env lay (before ++ after) = some (acts, e)) :
    ∃ a b e₁ e₂, c.traceAll env lay before = some (a, e₁) ∧
      c.traceAll env lay after = some (b, e₂) ∧
      Equiv lay (scope lay acts) (scope lay a ++ scope lay b) := by
  obtain ⟨a, e₁, b, e₂, ha, hb, ⟨⟩⟩ := traceAll_append.1 ht
  obtain ⟨ext, hext⟩ := (traceAll_grows c.calls_closed _ ha).after
  have hafter := (FreshAll.append_iff.1 hfresh).2
  have hhere : ∀ s ∈ after.nested, ∀ x ∈ before.flatMap (·.declared), s.touchesHere x = false := by
    intro s hs x hx
    have htouch := of_checkPrivate hcheck hx
    rw [Block.touches, List.any_eq_false] at htouch
    simpa using htouch s hs
  have hspare : Block.Spares (before.flatMap (·.declared)) after := by
    intro s hs x hx
    have hseen : x ∈ (before.flatMap (·.declared)).reverse ++ seen :=
      List.mem_append_left _ (List.mem_reverse.2 hx)
    refine ⟨.inr ?_,
      fun hbind => hafter.not_mem_binders hseen (List.mem_filterMap.2 ⟨s, hs, hbind⟩)⟩
    have htouch := hhere s hs x hx
    cases s <;> simp_all [touchesHere, readsHere]
  have hkeep : flatMapAll (·.withoutStore (before.flatMap (·.declared))) after = after := by
    refine flatMapAll_eq_self fun s hs => ?_
    cases s with
    | store u b idx rhs =>
      have hb : b ∉ before.flatMap (·.declared) := fun hx => by
        simpa [touchesHere] using hhere _ hs b hx
      rw [withoutStore, if_neg (by simpa using hb)]
    | _ => rfl
  obtain ⟨b', e', hb', hact, -⟩ := traceAll_without c.calls_closed c.calls_seated hspare _
    ((Seats.refl lay).forget ext)
    (seats_of_traceAll htidy ha (by rw [hext, List.length_append])) (hext ▸ hb)
  rw [hkeep] at hb'
  have hgrow := traceAll_grows c.calls_closed _ ha
  refine ⟨a, b', e₁, e', ha, hb', ?_⟩
  -- the tensors of the part before are gone when the part after runs on its own
  have heq : Equiv lay (scope lay (a ++ b)) (scope lay (scope lay a ++ b')) := by
    refine Equiv.of_seated (hgrow.append (traceAll_grows c.calls_closed _ hb))
      (hgrow.scope.grows.append ?_) fun st hst => ?_
    · rw [hgrow.scope.after]
      exact traceAll_grows c.calls_closed _ hb'
    have hscope : perform (scope lay a) st = (perform a st).take lay.length := by
      simp [scope, Action.perform]
    have hlay : Store.layout (perform a st) = lay ++ ext := by rw [layout_perform, hst, hext]
    have hstart : Seated Eq .whole lay.length (perform a st) ((perform a st).take lay.length) := by
      intro i o x q hi hq hx
      rw [Seat.lies_whole.1 hq, Store.at?_take hi]
      exact ⟨x, hx, rfl⟩
    rw [perform_append, perform_append, hscope]
    refine ((hact.stores (Element.related_eq _) hlay ?_ ?_).mono ?_).congr fun i hi =>
      (Seat.put_of_lt hi).symm
    · rw [← hscope, layout_perform, hst, hgrow.scope.after]
    · rw [List.length_append]
      exact hstart.forget _ _
    · have hle := (traceAll_grows c.calls_closed _ (hext ▸ hb)).length_le_after
      rw [List.length_append] at hle
      omega
  simpa [scope] using heq

/-! ## Guards and loops -/

/-- Two statements that declare nothing run one after the other. -/
theorem Stmt.traceAll_pair {t : Stmt} {a b : List Action} (hdecl : s.decl? = none)
    (hs : s.trace .checked c c.calls env lay = some (a, env))
    (ht : t.trace .checked c c.calls env lay = some (b, env)) :
    c.traceAll env lay [s, t] = some (a ++ b, env) := by
  have hclose : lay.after a = lay := ((trace_grows c.calls_closed hs).1 hdecl).1.after
  exact traceAll_cons.2 ⟨a, env, b, env, hs, traceAll_singleton.2 (by rw [hclose, ht]), rfl⟩

theorem Stmt.trace_cutGuard {cond : Expr} (htidy : env.Tidy seen lay)
    (hfresh : (Stmt.guard cond (before ++ after)).Fresh seen)
    (hcheck : checkPrivate before after = .ok ())
    (ht : (Stmt.guard cond (before ++ after)).trace .checked c c.calls env lay = some (acts, env)) :
    ∃ acts', c.traceAll env lay [.guard cond before, .guard cond after] =
      some (acts', env) ∧ Equiv lay acts acts' := by
  obtain ⟨hfalse, ⟨⟩⟩ | ⟨htrue, x, e, hx, ⟨⟩⟩ := trace_guard.1 ht
  · exact ⟨_, traceAll_pair rfl (trace_guard.2 (.inl ⟨hfalse, rfl⟩))
      (trace_guard.2 (.inl ⟨hfalse, rfl⟩)), .refl _ _⟩
  · obtain ⟨a, b, e₁, e₂, ha, hb, heq⟩ := traceAll_cut htidy hfresh hcheck hx
    exact ⟨_, traceAll_pair rfl (trace_guard.2 (.inr ⟨htrue, a, e₁, ha, rfl⟩))
      (trace_guard.2 (.inr ⟨htrue, b, e₂, hb, rfl⟩)), heq⟩

/-- Accesses in conflict on both sides of the cut pin the loop variable. -/
theorem of_checkFission (hcheck : checkFission h before after = .ok ()) :
    checkPrivate before after = .ok () ∧
      ∀ a ∈ Access.ofBlock [] after, ∀ b ∈ Access.ofBlock [] before, a.conflicts b = true →
        a.buf ∉ after.allocated ++ before.allocated → h.var ∈ Access.pinned [h.enclosing] a b := by
  simp only [checkFission, except_bind_eq_ok] at hcheck
  obtain ⟨_, hprivate, hcheck⟩ := hcheck
  refine ⟨hprivate, fun a ha b hb hab hlocal => ?_⟩
  split at hcheck
  · cases hcheck
  next hnone =>
    have hmem : a ∈ (Access.ofBlock [] after).filter
        fun a => !(Block.allocated before ++ Block.allocated after).contains a.buf := by
      refine List.mem_filter.2 ⟨ha, ?_⟩
      rw [List.mem_append, or_comm] at hlocal
      simpa using hlocal
    have hall := List.find?_eq_none.1 hnone a hmem
    rw [Bool.not_eq_true, List.any_eq_false] at hall
    simpa [hab] using hall b hb

/-- The second half of a round is apart from the first half of another round. -/
theorem Stmt.halves_apart (htidy : env.Tidy seen lay)
    (hfresh : (Stmt.loop h (before ++ after)).Fresh seen)
    (hcheck : checkFission h before after = .ok ()) {n : Word}
    (hn : Evaluator.checked.eval env h.bound = some n) {j k : Nat} (hj : j < n.toInt.toNat)
    (hk : k < n.toInt.toNat) (hjk : j ≠ k) {a b : List Action} {e' : Env}
    (ha : c.traceAll (env.turn h j) lay after = some (a, e))
    (hb : c.traceAll (env.turn h k) lay before = some (b, e')) : Apart lay a b := by
  obtain ⟨hvar, hbody⟩ := hfresh
  obtain ⟨hbefore, hafter⟩ := FreshAll.append_iff.1 hbody
  have hinner : ∀ {k : Nat}, k < n.toInt.toNat → Env.Inner lay.length [h.enclosing] env
      (env.turn h k) := fun hk => by
    obtain ⟨h0, hlt⟩ := Header.lt_of_constant? hn hk
    exact (Env.Inner.refl _ env).bind_index h.var h0 hlt
  refine apart_of_pinned c.calls_closed c.calls_confined htidy.plain (hinner hj) (hinner hk)
    (fun x hx => htidy.bound x fun hmem => ?_) (fun x hx => ?_) ha hb
    fun a ha b hb hab hlocal => ⟨h.var, by simp [Header.enclosing], ?_,
      .inl ((of_checkFission hcheck).2 a ha b hb hab hlocal)⟩
  · simp only [List.map_cons, List.map_nil, List.mem_singleton] at hx
    obtain rfl | hx | hx := hx
    · exact hvar hmem
    · exact hafter.not_mem_binders (by simp [hmem]) hx
    · exact hbefore.not_mem_binders (.tail _ hmem) hx
  · simp only [List.map_cons, List.map_nil, List.mem_singleton] at hx
    subst hx
    exact ⟨hafter.not_mem_binders (by simp [Header.enclosing]), hbefore.not_mem_binders (.head _)⟩
  · simpa [Env.value?_bind] using Word.ofNat_ne hj hk hjk

/-- **A loop cut in two.** -/
theorem Stmt.trace_cutLoop (htidy : env.Tidy seen lay)
    (hfresh : (Stmt.loop h (before ++ after)).Fresh seen)
    (hcheck : checkFission h before after = .ok ())
    (ht : (Stmt.loop h (before ++ after)).trace .checked c c.calls env lay = some (acts, env)) :
    ∃ acts', c.traceAll env lay [.loop h before, .loop h after] =
      some (acts', env) ∧ Equiv lay acts acts' := by
  obtain ⟨n, g, hn, hg, ⟨⟩⟩ := trace_loop.1 ht
  -- every round is cut
  have hround : ∀ k < n.toInt.toNat, ∃ a b,
      (∃ e, c.traceAll (env.turn h k) lay before = some (a, e)) ∧
      (∃ e, c.traceAll (env.turn h k) lay after = some (b, e)) ∧
      Equiv lay (scope lay (g k)) (scope lay a ++ scope lay b) := by
    intro k hk
    obtain ⟨e, he⟩ := hg k hk
    obtain ⟨a, b, e₁, e₂, ha, hb, heq⟩ := traceAll_cut
      (htidy.bind_index h.var (Int64.ofNat k)) hfresh.2 (of_checkFission hcheck).1 he
    exact ⟨a, b, ⟨e₁, ha⟩, ⟨e₂, hb⟩, heq⟩
  choose! a b ha hb heq using hround
  have hcloses : ∀ {b : Block} {f : Nat → List Action}, (∀ k < n.toInt.toNat, ∃ e,
      c.traceAll (env.turn h k) lay b =
        some (f k, e)) → ∀ k ∈ List.range n.toInt.toNat, Closes lay (scope lay (f k)) := by
    intro b f hf k hk
    obtain ⟨e, he⟩ := hf k (List.mem_range.1 hk)
    exact scope_traceAll_closes c.calls_closed he
  refine ⟨_, traceAll_pair rfl (trace_loop.2 ⟨n, a, hn, ha, rfl⟩)
    (trace_loop.2 ⟨n, b, hn, hb, rfl⟩), ?_⟩
  -- then all second halves go behind all first halves
  refine (Equiv.flatMap (hcloses hg) fun k hk => heq k (List.mem_range.1 hk)).trans ?_
  refine Equiv.distribute (hcloses ha) (hcloses hb) ?_
  refine List.pairwise_lt_range.imp_of_mem fun {j k} hj hk hjk => ?_
  rw [List.mem_range] at hj hk
  obtain ⟨e₁, he₁⟩ := hb j hj
  obtain ⟨e₂, he₂⟩ := ha k hk
  exact (halves_apart htidy hfresh hcheck hn hj hk (Nat.ne_of_lt hjk) he₁ he₂).scope lay lay

/-- May the scope be cut between the two parts of its body? -/
def Stmt.MayCut (before after : Block) : Stmt → Prop
  | .loop h _ => checkFission h before after = .ok ()
  | _ => checkPrivate before after = .ok ()

theorem Stmt.trace_cut (htidy : env.Tidy seen lay) (hbody : s.body? = some (before ++ after))
    (hfresh : s.Fresh seen) (hcut : s.MayCut before after)
    (ht : s.trace .checked c c.calls env lay = some (acts, env)) :
    ∃ acts', c.traceAll env lay [s.withBody before, s.withBody after] =
      some (acts', env) ∧ Equiv lay acts acts' := by
  cases s with
  | loop h body =>
    cases hbody
    exact trace_cutLoop htidy hfresh hcut ht
  | guard cond body =>
    cases hbody
    exact trace_cutGuard htidy hfresh hcut ht
  | _ => cases hbody

theorem Stmt.freshAll_cut (hbody : s.body? = some (before ++ after)) {rest : Block}
    (hfresh : FreshAll seen (s :: rest)) :
    FreshAll seen ([s.withBody before, s.withBody after] ++ rest) := by
  obtain ⟨hs, hrest⟩ := hfresh
  cases s with
  | loop h body =>
    cases hbody
    obtain ⟨hbefore, hafter⟩ := FreshAll.append_iff.1 hs.2
    exact ⟨⟨hs.1, hbefore⟩, ⟨hs.1, hafter.mono fun x hx => List.mem_append_right _ hx⟩, hrest⟩
  | guard cond body =>
    cases hbody
    obtain ⟨hbefore, hafter⟩ := FreshAll.append_iff.1 hs
    exact ⟨hbefore, hafter.mono fun x hx => List.mem_append_right _ hx, hrest⟩
  | _ => cases hbody

end cut

/-! ## Kernels -/

section kernels

variable {α : Type} [Element α] {p : Proc} {c : Catalog} {args : Args α}

/-- One cut in a kernel that runs to its end. -/
theorem Proc.run_cut (hfresh : FreshAll (p.params.map (·.name)) p.body) {s : Stmt}
    (hstmt : p.stmt? path = some s) {before after : Block}
    (hbody : s.body? = some (before ++ after)) (hcut : s.MayCut before after)
    (hrun : (p.run c args).1 = .ok ()) :
    ∃ b, p.body.replace? path [s.withBody before, s.withBody after] = some b ∧
      FreshAll (p.params.map (·.name)) b ∧ { p with body := b }.run c args = p.run c args := by
  obtain ⟨b, hreplace, hrel⟩ := Block.replaced_of_get? [s.withBody before, s.withBody after] hstmt
  have hdecl : s.decl? = none := by cases s <;> first | rfl | cases hbody
  have ⟨rest, hrecast⟩ := hrel
  refine ⟨b, hreplace, hrecast.freshAll (fun seen => freshAll_cut hbody) hfresh, ?_⟩
  refine Proc.run_replaced hfresh hdecl hrel (fun seen env st acts _ htidy hs ht => ?_) hrun
  obtain ⟨acts', ht', heq⟩ := trace_cut htidy hbody hs hcut ht
  exact ⟨acts', ht', heq.toIn α⟩

/-- All scopes around `point` that `cutScopes` cuts may be cut: loops without hoisting or sinking a
part. -/
def Block.CheckedCuts : (n : Nat) → (point : Path) → Block → Prop
  | 0, _, _ => True
  | n + 1, point, b => ∀ parent s body, point.parent? = some parent → b.get? parent = some s →
    s.body? = some body →
      let before := body.take (point.position + 1)
      let after := body.drop (point.position + 1)
      if after.isEmpty then CheckedCuts n parent b
      else s.MayCut before after ∧ ∀ b', b.replace? parent [s.withBody before, s.withBody after] =
        some b' → CheckedCuts n parent b'

theorem Path.sibling_position (h : path ≠ []) : path.sibling (path.position + 0) = path := by
  rw [Path.sibling, if_neg (by simpa using h), Path.position, List.getLast?_eq_some_getLast h]
  exact List.dropLast_append_getLast h

/-- A cut that may be made is the one that is made, and the next one is around the same place. -/
theorem cutScope_of_mayCut {s : Stmt} {before after body : Block} (hbody : s.body? = some body)
    (hcut : s.MayCut before after) :
    cutScope sizes path s before after = .ok ([s.withBody before, s.withBody after], 0) := by
  cases s with
  | loop h b =>
    have hcheck : checkFission h before after = .ok () := hcut
    rw [cutScope, (of_checkFission hcheck).1]
    simp only [cutLoop, hcheck]
    rfl
  | guard cond b =>
    have hcheck : checkPrivate before after = .ok () := hcut
    rw [cutScope, hcheck]
    rfl
  | _ => cases hbody

/-- **Cuts that may be made keep the run.** By induction on their number: each cut starts from the
kernel that the cut before it has left. -/
theorem Proc.run_cutScopes {n : Nat} {point : Path} {b : Block}
    (hfresh : FreshAll (p.params.map (·.name)) p.body) (hcuts : p.body.CheckedCuts n point)
    (hb : cutScopes sizes n point p.body = .ok b) (hrun : (p.run c args).1 = .ok ()) :
    { p with body := b }.run c args = p.run c args := by
  induction n generalizing p point with
  | zero =>
    cases hb
    rfl
  | succ n ih =>
    rw [cutScopes] at hb
    split at hb
    next parent hparent =>
      split at hb
      next s hs =>
        split at hb
        next body hbody =>
          have hcuts := hcuts parent s body hparent hs hbody
          simp only at hcuts hb
          split at hcuts
          next hempty =>
            rw [if_pos hempty] at hb
            exact ih hfresh hcuts hb hrun
          next hempty =>
            rw [if_neg hempty, cutScope_of_mayCut hbody hcuts.1, except_bind_eq_ok] at hb
            obtain ⟨_, ⟨⟩, hb⟩ := hb
            rw [← List.take_append_drop (point.position + 1) body] at hbody
            obtain ⟨b', hreplace, hfresh', hrun'⟩ := Proc.run_cut hfresh hs hbody hcuts.1 hrun
            have hne : parent ≠ [] := fun h => by rw [h] at hs; cases hs
            simp only [hreplace, Path.sibling_position hne] at hb
            rw [← hrun']
            exact ih hfresh' (hcuts.2 b' hreplace) hb (hrun' ▸ hrun)
        · cases hb
      · cases hb
    · cases hb

/-- **Fission keeps results.** Three ways to cut scopes of a valid kernel that runs to its end leave a
kernel that runs to its end with the same tensors: cutting a loop where the dependence check allows
it, cutting a guard that does not part an allocation from its uses, and any number of such cuts
around a statement. -/
theorem Proc.run_fissioned (hvalid : p.problems (some c.find?) = [])
    (hrun : (p.run c args).1 = .ok ()) :
    (∀ path h before after, p.stmt? path = some (.loop h (before ++ after)) →
      checkFission h before after = .ok () →
        ∃ b, p.body.replace? path [.loop h before, .loop h after] = some b ∧
          { p with body := b }.run c args = (.ok (), (p.run c args).2)) ∧
    (∀ path cond before after, p.stmt? path = some (.guard cond (before ++ after)) →
      checkPrivate before after = .ok () →
        ∃ b, p.body.replace? path [.guard cond before, .guard cond after] = some b ∧
          { p with body := b }.run c args = (.ok (), (p.run c args).2)) ∧
    ∀ stmt lifts path q, p.pickStmt stmt = .ok path → p.body.CheckedCuts lifts path →
      p.fissionAfter stmt lifts = .ok q → q.run c args = (.ok (), (p.run c args).2) := by
  have hfresh := Proc.freshAll hvalid
  have hsame : p.run c args = (.ok (), (p.run c args).2) := Prod.ext hrun rfl
  refine ⟨fun path h before after hstmt hcheck => ?_, fun path cond before after hstmt hcheck => ?_,
    fun stmt lifts path q hpick hcuts hq => ?_⟩
  · obtain ⟨b, hb, -, hrun'⟩ := Proc.run_cut hfresh hstmt rfl hcheck hrun
    exact ⟨b, hb, hrun'.trans hsame⟩
  · obtain ⟨b, hb, -, hrun'⟩ := Proc.run_cut hfresh hstmt rfl hcheck hrun
    exact ⟨b, hb, hrun'.trans hsame⟩
  · rw [fissionAfter, hpick, except_bind_eq_ok] at hq
    obtain ⟨_, ⟨⟩, hq⟩ := hq
    split at hq
    · cases hq
    · rw [except_bind_eq_ok] at hq
      obtain ⟨b, hb, hq⟩ := hq
      unfold finish at hq
      split at hq
      · cases hq
        exact (Proc.run_cutScopes hfresh hcuts hb hrun).trans hsame
      · cases hq

end kernels

/-- Two updates of every element but the last; the second one reads what the first one wrote. -/
def twoUpdates : Proc where
  name := "two_updates"
  params := [.size "n", .buffer ⟨"A", .f32, [.var "n"], .dram⟩,
    .buffer ⟨"B", .f32, [.var "n"], .dram⟩]
  body := [.loop ⟨"k", .var "n", .seq⟩ [.guard (.binary .lt (.binary .add (.var "k") (.int 1))
    (.var "n")) [
      .store .add "A" [.var "k"] (.read "B" [.var "k"]),
      .store .set "B" [.var "k"] (.binary .mul (.read "A" [.var "k"]) (.read "A" [.var "k"]))]]]

/-- The guard and the loop around the first update are cut, so that it is made everywhere before the
second one. -/
theorem twoUpdates_fissioned :
    let args : Args Float := ⟨[("n", 3)], [("A", ⟨.f32, [3], #[1, 2, 3]⟩),
      ("B", ⟨.f32, [3], #[4, 5, 6]⟩)]⟩
    let guarded (s : Stmt) : Stmt :=
      .loop ⟨"k", .var "n", .seq⟩ [.guard (.binary .lt (.binary .add (.var "k") (.int 1)) (.var "n"))
        [s]]
    let q : Proc := { twoUpdates with body := [
      guarded (.store .add "A" [.var "k"] (.read "B" [.var "k"])),
      guarded (.store .set "B" [.var "k"]
        (.binary .mul (.read "A" [.var "k"]) (.read "A" [.var "k"])))] }
    (twoUpdates.run {} args).1 = .ok () ∧ twoUpdates.fissionAfter "A[_] += _" 2 = .ok q ∧
      q.run {} args = (.ok (), (twoUpdates.run {} args).2) := by
  intro args guarded q
  have hvalid : twoUpdates.problems (some (Catalog.find? {})) = [] := rfl
  have hrun : (twoUpdates.run {} args).1 = .ok () := rfl
  have hpick : twoUpdates.pickStmt "A[_] += _" = .ok [0, 0, 0] := by cbv
  have hcuts : twoUpdates.body.CheckedCuts 2 [0, 0, 0] := by
    rintro _ _ _ ⟨⟩ ⟨⟩ ⟨⟩
    refine ⟨rfl, ?_⟩
    rintro _ ⟨⟩ _ _ _ ⟨⟩ ⟨⟩ ⟨⟩
    exact ⟨rfl, fun _ _ => trivial⟩
  have hq : twoUpdates.fissionAfter "A[_] += _" 2 = .ok q := by
    rw [Proc.fissionAfter, hpick]
    rfl
  exact ⟨hrun, hq, (Proc.run_fissioned hvalid hrun).2.2 _ 2 _ q hpick hcuts hq⟩

end LoopNest
