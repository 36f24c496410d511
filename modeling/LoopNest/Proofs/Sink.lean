import LoopNest.Proofs.Fission
import LoopNest.Proofs.Reached
import LoopNest.Proofs.Trace.Substitute

/-!
# Assignments that do not depend on the round move behind the loop

The second part of a loop body consists of assignments that mention no loop variable and read nothing
that they write, and the first part touches none of their targets. Every round then stores the values
that the last one stores, from elements that only first parts change, so the second part may run once,
behind the loop (`Proc.run_sunk`).

Behind the loop the allocations of the first part are gone. That the second part does without them is
checked on its own, when the scope is cut; sinking alone does not look at it (`lastCopy_sunk`).
-/

namespace LoopNest

open Stmt Access

variable {loops : List Enclosing} {h : Header}

/-! ## Assignments that overwrite each other -/

section overwrite

variable {α : Type} [Element α] {p : Place} {S : Place → Prop} {st st' : Store α}

/-- What an assignment leaves at its place depends on the layout alone. -/
theorem Store.at?_modifyAt_const (hlay : st.layout = st'.layout) (x : α) :
    (st.modifyAt p fun _ => x).at? p = (st'.modifyAt p fun _ => x).at? p := by
  rw [at?_modifyAt, at?_modifyAt, hlay]
  cases hx : st.at? p with
  | some y =>
    obtain ⟨y', hy'⟩ := exists_at?_of_layout hlay hx
    rw [hy']
    rfl
  | none =>
    cases hx' : st'.at? p with
    | none => rfl
    | some y =>
      obtain ⟨y', hy'⟩ := exists_at?_of_layout hlay.symm hx'
      exact absurd (hx.symm.trans hy') nofun

/-- An assignment of a value that is the same in both stores. -/
theorem Agree.assign (h : Agree S st st') {t : Term} (ht : ∀ q ∈ t.loads, S q) :
    Agree (fun q => S q ∨ q = p) ((Action.store .set p t).perform st)
      ((Action.store .set p t).perform st') := by
  have hvalue : t.eval st = t.eval st' := Term.eval_congr fun q hq => h.at? q (ht q hq)
  simp only [Action.perform, hvalue]
  refine ⟨by rw [Store.layout_modifyAt, Store.layout_modifyAt, h.layout], fun q hq => ?_⟩
  by_cases hqp : q = p
  · rw [hqp]
    exact Store.at?_modifyAt_const h.layout _
  · rw [Store.at?_modifyAt_of_ne hqp, Store.at?_modifyAt_of_ne hqp]
    exact h.at? q (hq.resolve_right hqp)

/-- **Assignments make stores agree** on what they write, if the stores agree on what they read. -/
theorem Agree.perform_assignments (h : Agree S st st') {acts : List Action}
    (hacts : ∀ a ∈ acts, (∃ m, a = .release m) ∨ ∃ p t, a = .store .set p t ∧ ∀ q ∈ t.loads, S q) :
    Agree (fun p => S p ∨ p ∈ written acts) (LoopNest.perform acts st)
      (LoopNest.perform acts st') := by
  induction acts generalizing S st st' with
  | nil => exact ⟨h.layout, fun p hp => h.at? p (hp.resolve_right (by simp [written]))⟩
  | cons a acts ih =>
    obtain ⟨hhead, hrest⟩ := List.forall_mem_cons.1 hacts
    obtain ⟨m, rfl⟩ | ⟨p, t, rfl, ht⟩ := hhead
    · have hstep : Agree S ((Action.release m).perform st) ((Action.release m).perform st') :=
        h.performAction (by simp [Action.touched])
      refine ⟨(ih hstep hrest).layout, fun q hq => (ih hstep hrest).at? q ?_⟩
      simpa [written, Action.written] using hq
    · -- from here on the stores agree on one place more
      have hmore := ih (h.assign (p := p) ht) fun a ha => (hrest a ha).imp_right <|
        Exists.imp fun _ => Exists.imp fun _ => And.imp_right fun hu r hr => .inl (hu r hr)
      refine ⟨hmore.layout, fun q hq => hmore.at? q ?_⟩
      simp only [written, List.flatMap_cons, Action.written, List.singleton_append,
        List.mem_cons] at hq ⊢
      tauto

end overwrite

/-- **Second parts that overwrite each other may run once, behind all rounds.** They assign values
computed from what they do not write, to places that the first parts do not touch. -/
theorem Equiv.sink {lay : Layout} {n : Nat} {a : Nat → List Action} {b : List Action} (hn : 0 < n)
    (ha : ∀ k < n, Closes lay (a k)) (hb : Closes lay b)
    (hassign : ∀ act ∈ b, (∃ m, act = .release m) ∨
      ∃ p t, act = .store .set p t ∧ ∀ q ∈ t.loads, q ∉ written b)
    (hapart : ∀ k < n, ∀ p ∈ touched (a k), p ∉ written b) :
    Equiv lay ((List.range n).flatMap fun k => a k ++ b) ((List.range n).flatMap a ++ b) := by
  have hfirst : ∀ m ≤ n, Closes lay ((List.range m).flatMap a) := fun m hm =>
    .flatMap fun k hk => ha k (by have := List.mem_range.1 hk; omega)
  have hall : Closes lay ((List.range n).flatMap fun k => a k ++ b) :=
    .flatMap fun k hk => (ha k (List.mem_range.1 hk)).append hb
  refine ⟨by rw [hall.after, ((hfirst n (Nat.le_refl n)).append hb).after], fun α _ st hst => ?_⟩
  -- a second part that is followed by another round leaves no trace
  have habsorb : ∀ k < n, ∀ s : Store α, s.layout = lay →
      perform b (perform (a k) (perform b s)) = perform b (perform (a k) s) := by
    intro k hk s hs
    have hlayb : Store.layout (perform b s) = lay := by rw [layout_perform, hs, hb.after]
    have hlen : s.length = lay.length := by rw [← hs, Store.length_layout]
    have hagree : Agree (· ∉ written b) (perform b s) s := by
      refine ⟨by rw [hlayb, hs], fun p hp => ?_⟩
      by_cases hlt : p.1 < lay.length
      · exact at?_perform_of_not_written hlt hlen.ge hb.marks hp
      · rw [Store.at?_eq_none (by rw [← Store.length_layout, hlayb]; omega),
          Store.at?_eq_none (by omega)]
    have hsame := (hagree.perform (hapart k hk)).perform_assignments hassign
    exact Store.ext_at hsame.layout fun p => hsame.at? p (by tauto)
  have hrounds : ∀ m, m + 1 ≤ n → perform ((List.range (m + 1)).flatMap fun k => a k ++ b) st =
      perform b (perform ((List.range (m + 1)).flatMap a) st) := by
    intro m hm
    induction m with
    | zero => simp
    | succ m ih =>
      have hlay : Store.layout (perform ((List.range (m + 1)).flatMap a) st) = lay := by
        rw [layout_perform, hst, (hfirst (m + 1) (by omega)).after]
      rw [List.range_succ, List.flatMap_append, List.flatMap_append, perform_append, perform_append,
        ih (by omega)]
      simp only [List.flatMap_cons, List.flatMap_nil, List.append_nil, perform_append]
      exact habsorb (m + 1) (by omega) _ hlay
  obtain ⟨m, rfl⟩ : ∃ m, n = m + 1 := ⟨n - 1, by omega⟩
  rw [hrounds m .refl, perform_append]

/-! ## The accesses of assignments -/

theorem Expr.mem_collect_of_mem {β γ : Type} {f : Expr → List β} {f' : Expr → List γ} {g : β → γ}
    (hf : ∀ e, ∀ x ∈ f e, g x ∈ f' e) {e : Expr} {x : β} (h : x ∈ e.collect f) :
    g x ∈ e.collect f' := by
  rw [collect_eq_flatMap, List.mem_flatMap] at h ⊢
  obtain ⟨e', he', hx⟩ := h
  exact ⟨e', he', hf e' x hx⟩

/-- A recorded access is to a buffer that the block touches. -/
theorem Access.touches_of_mem_ofBlock {b : Block} {a : Access} (h : a ∈ ofBlock loops b) :
    b.touches a.buf = true := by
  induction b using Block.induction generalizing loops with
  | nil => simp [ofBlock] at h
  | cons s rest ihs ihrest =>
    rw [Block.touches, Block.nested, nestedAll, List.any_append, Bool.or_eq_true]
    rw [ofBlock, List.mem_append] at h
    refine h.imp (fun h => ?_) fun h => ihrest h
    cases s with
    | loop hd body | guard e body =>
      rw [Stmt.nested, List.any_cons, Bool.or_eq_true]
      exact .inr (ihs body rfl h)
    | store u buf idx rhs =>
      simp only [Stmt.nested, List.any_cons, List.any_nil, Bool.or_false, touchesHere,
        Bool.or_eq_true, beq_iff_eq]
      obtain h | h := List.mem_append.1 h
      · refine .inr (List.any_eq_true.2 ⟨rhs, by simp [Stmt.exprs], ?_⟩)
        rw [Expr.reads, List.contains_iff_mem]
        refine Expr.mem_collect_of_mem (g := Access.buf) (fun e x hx => ?_) h
        cases e <;> simp_all
      · rw [List.mem_singleton.1 h]
        exact .inl rfl
    | alloc d => simp [ofStmt] at h
    | call t args =>
      obtain ⟨w, hw, rfl⟩ := List.mem_map.1 h
      simp only [Stmt.nested, List.any_cons, List.any_nil, Bool.or_false, touchesHere,
        Bool.or_eq_true]
      exact .inl (List.any_eq_true.2 ⟨w, hw, beq_self_eq_true _⟩)

/-- The statement is a loop or an assignment. -/
def Stmt.Assigns (s : Stmt) : Prop :=
  (∃ h body, s = .loop h body) ∨ ∃ b idx rhs, s = .store .set b idx rhs

/-- What may be sunk mentions no loop variable, consists of assignments that read nothing that they
write, and is to buffers that the part before does not touch. -/
theorem of_isSinkable {var : String} {before after : Block} (h : isSinkable var before after = true) :
    after.mentions var = false ∧ (∀ s ∈ after.nested, s.Assigns) ∧
      (∀ r ∈ ofBlock [] after, ∀ w ∈ ofBlock [] after, r.write = false →
        w.write = true → r.buf ≠ w.buf) ∧
      ∀ w ∈ ofBlock [] after, w.write = true → before.touches w.buf = false := by
  simp only [isSinkable, Bool.and_eq_true, Bool.not_eq_true', List.all_eq_true, List.any_eq_false,
    List.contains_iff_mem, List.mem_map, List.mem_filter] at h
  obtain ⟨⟨hmention, hassign⟩, hreads, hwrites⟩ := h
  refine ⟨hmention, fun s hs => ?_, fun r hr w hw hread hwrite hname => ?_, fun w hw hwrite => ?_⟩
  · have := hassign s hs
    split at this
    · exact .inl ⟨_, _, rfl⟩
    · exact .inr ⟨_, _, _, rfl⟩
    · cases this
  · exact hreads r hr ⟨hread, w, ⟨hw, hwrite⟩, hname.symm⟩
  · simpa using hwrites w.buf ⟨w, ⟨hw, hwrite⟩, rfl⟩

section assignments

variable {acts : List Action}

/-- The actions store without looking at what was there, into old tensors, and read elements of
buffers for which one of the accesses is a read. Otherwise they give tensors back. -/
def Assigning (lay : Layout) (env : Env) (accesses : List Access) (acts : List Action) : Prop :=
  ∀ act ∈ acts, (∃ m, act = .release m) ∨ ∃ p t, act = .store .set p t ∧ p.1 < lay.length ∧
    ∀ q ∈ t.loads, ∃ r ∈ accesses, r.write = false ∧ ∃ v, env.view? r.buf = some v ∧ v.tensor = q.1

theorem Assigning.mono {lay : Layout} {env : Env} {l l' : List Access}
    (h : Assigning lay env l acts) (hsub : ∀ r ∈ l, r ∈ l') : Assigning lay env l' acts := by
  intro act hact
  obtain hrelease | ⟨p, t, heq, hlt, hloads⟩ := h act hact
  · exact .inl hrelease
  · refine .inr ⟨p, t, heq, hlt, fun q hq => ?_⟩
    obtain ⟨r, hr, hread⟩ := hloads q hq
    exact ⟨r, hsub r hr, hread⟩

variable {ev : Evaluator} {c : Catalog} {callee : Callee} {env₀ : Env} {lay : Layout}

/-- One assignment or loop, if its body, if it has one, is as claimed. -/
theorem Stmt.trace_assigning_of_body {s : Stmt} (hs : s.Assigns)
    (hbody : ∀ body, s.body? = some body → ∀ {loops : List Enclosing} {env e : Env}
      {acts : List Action}, Env.Inner lay.length loops env₀ env →
      traceAll ev c callee env lay body = some (acts, e) →
        Assigning lay env₀ (ofBlock loops body) acts) {env e : Env}
    (hinner : Env.Inner lay.length loops env₀ env)
    (h : s.trace ev c callee env lay = some (acts, e)) :
    Assigning lay env₀ (ofStmt loops s) acts := by
  intro act hact
  obtain ⟨hd, body, rfl⟩ | ⟨buf, idx, rhs, rfl⟩ := hs
  · obtain ⟨n, g, hn, hg, ⟨⟩⟩ := trace_loop.1 h
    obtain ⟨k, hk, hact⟩ := List.mem_flatMap.1 hact
    rw [List.mem_range] at hk
    obtain ⟨e', he'⟩ := hg k hk
    obtain ⟨h0, hlt⟩ := Header.lt_of_constant? hn hk
    obtain hact | hact := List.mem_append.1 hact
    · exact hbody body rfl (hinner.bind_index hd.var h0 hlt) he' act hact
    · exact .inl ⟨_, List.mem_singleton.1 hact⟩
  · obtain ⟨t, p, ht, hp, ⟨⟩⟩ := trace_store.1 h
    refine .inr ⟨p, t, List.mem_singleton.1 hact, (Evaluator.view_of_place hp).2, fun q hq => ?_⟩
    obtain ⟨buf', idx', hmem, hq'⟩ := Evaluator.read_of_loads loops ht hq
    obtain ⟨⟨v, hv, htensor⟩, hlt⟩ := Evaluator.view_of_place hq'
    exact ⟨_, List.mem_append_left _ hmem, rfl, v, hinner.view _ v hv (htensor ▸ hlt), htensor⟩

theorem Stmt.Assigns.decl?_eq_none {s : Stmt} (h : s.Assigns) : s.decl? = none := by
  obtain ⟨hd, body, rfl⟩ | ⟨buf, idx, rhs, rfl⟩ := h
  · rfl
  · rfl

/-- **What assignments do.** They declare nothing. -/
theorem Stmt.traceAll_assigning (hc : callee.Closed) {b : Block} (hb : ∀ s ∈ b.nested, s.Assigns)
    {env e : Env} (hinner : Env.Inner lay.length loops env₀ env)
    (h : traceAll ev c callee env lay b = some (acts, e)) :
    e = env ∧ Closes lay acts ∧ Assigning lay env₀ (ofBlock loops b) acts := by
  induction b using Block.induction generalizing loops env e acts with
  | nil =>
    obtain ⟨⟩ := traceAll_nil.1 h
    exact ⟨rfl, .nil lay, nofun⟩
  | cons s rest ihs ihrest =>
    obtain ⟨x, e₁, y, e₂, hs, hrest, ⟨⟩⟩ := traceAll_cons.1 h
    simp only [Block.nested, nestedAll, List.mem_append] at hb
    have hhere : s.Assigns := hb s (.inl (by cases s <;> simp [Stmt.nested]))
    obtain ⟨hclose, rfl⟩ := (trace_grows hc hs).1 hhere.decl?_eq_none
    rw [hclose.after] at hrest
    have hbody : ∀ body, s.body? = some body → ∀ t ∈ Block.nested body, t.Assigns := by
      intro body hbody t ht
      refine hb t (.inl ?_)
      cases s <;> cases hbody <;> exact .tail _ ht
    have hhead := trace_assigning_of_body hhere
      (fun body hs _ _ _ _ hinner h => (ihs body hs (hbody body hs) hinner h).2.2) hinner hs
    obtain ⟨rfl, hclose', htail⟩ := ihrest (fun t ht => hb t (.inr ht)) hinner hrest
    refine ⟨rfl, hclose.append hclose', fun act hact => ?_⟩
    rw [ofBlock]
    obtain hact | hact := List.mem_append.1 hact
    · exact hhead.mono (fun r hr => List.mem_append_left _ hr) act hact
    · exact htail.mono (fun r hr => List.mem_append_right _ hr) act hact

end assignments

/-! ## Loops -/

section loops

variable {c : Catalog} {seen : List String} {env : Env} {lay : Layout} {before after : Block}
  {acts : List Action}

/-- The targets of the second part are apart from what it reads and from what the first part
touches, for they are in other buffers. -/
theorem Stmt.apart_of_isSinkable (htidy : env.Tidy seen lay)
    (hsink : isSinkable h.var before after = true) {n : Word}
    (hn : Evaluator.checked.eval env h.bound = some n) {k : Nat} (hk : k < n.toInt.toNat)
    {a b : List Action} {e e' : Env} (ha : c.traceAll (env.turn h k) lay before = some (a, e))
    (hb : c.traceAll env lay after = some (b, e')) :
    (∀ act ∈ b, (∃ m, act = .release m) ∨
      ∃ p t, act = .store .set p t ∧ ∀ q ∈ t.loads, q ∉ written b) ∧
    ∀ p ∈ touched a, p ∉ written b := by
  obtain ⟨-, hassign, hreads, hwrites⟩ := of_isSinkable hsink
  obtain ⟨-, -, hassigning⟩ :=
    traceAll_assigning c.calls_closed hassign (Env.Inner.refl lay.length env) hb
  -- what is written belongs to a buffer with a recorded write
  have htarget : ∀ p ∈ written b, p.1 < lay.length ∧ ∃ w ∈ ofBlock [] after,
      w.write = true ∧ ∃ v, env.view? w.buf = some v ∧ v.tensor = p.1 := by
    intro p hp
    have hlt : p.1 < lay.length := by
      obtain ⟨act, hact, hmem⟩ := List.mem_flatMap.1 hp
      obtain ⟨m, rfl⟩ | ⟨q, t, rfl, hlt, -⟩ := hassigning act hact
      · cases hmem
      · rw [List.mem_singleton.1 hmem]
        exact hlt
    obtain ⟨w, hw, hwrite, inner, hin, v, -, -, hv, htensor, -⟩ :=
      traceAll_covered c.calls_closed c.calls_confined after (Env.Inner.refl lay.length env)
        (List.append_nil lay).symm hb true p hlt hp
    exact ⟨hlt, w, hw, hwrite rfl, v, hin.view _ v hv (htensor ▸ hlt), htensor⟩
  refine ⟨fun act hact => ?_, fun p hp hwritten => ?_⟩
  · obtain hrelease | ⟨p, t, heq, -, hloads⟩ := hassigning act hact
    · exact .inl hrelease
    · refine .inr ⟨p, t, heq, fun q hq hwritten => ?_⟩
      obtain ⟨r, hr, hread, v, hv, htensor⟩ := hloads q hq
      obtain ⟨-, w, hw, hwrite, v', hv', htensor'⟩ := htarget q hwritten
      exact hreads r hr w hw hread hwrite
        (htidy.plain.inj _ _ v v' hv hv' (htensor.trans htensor'.symm))
  · obtain ⟨hlt, w, hw, hwrite, v, hv, htensor⟩ := htarget p hwritten
    obtain ⟨h0, hbelow⟩ := Header.lt_of_constant? hn hk
    obtain ⟨r, hr, -, inner, hin, v', -, -, hv', htensor', -⟩ :=
      traceAll_covered c.calls_closed c.calls_confined before
        ((Env.Inner.refl lay.length env).bind_index h.var h0 hbelow) (List.append_nil lay).symm ha
        false p hlt hp
    have hname := htidy.plain.inj _ _ v' v (hin.view _ v' hv' (htensor' ▸ hlt)) hv
      (htensor'.trans htensor.symm)
    have htouch := touches_of_mem_ofBlock hr
    rw [hname, hwrites w hw hwrite] at htouch
    cases htouch

/-- **A loop with a part that moves behind it.** -/
theorem Stmt.trace_sunk (htidy : env.Tidy seen lay)
    (hfresh : (Stmt.loop h (before ++ after)).Fresh seen)
    (hprivate : checkPrivate before after = .ok ()) (hsink : isSinkable h.var before after = true)
    (hpos : ∀ n, Evaluator.checked.eval env h.bound = some n → 1 ≤ n.toInt)
    (ht : (Stmt.loop h (before ++ after)).trace .checked c c.calls env lay = some (acts, env)) :
    ∃ acts', c.traceAll env lay (.loop h before :: after) =
      some (acts', env) ∧ Equiv lay acts acts' := by
  obtain ⟨n, g, hn, hg, ⟨⟩⟩ := trace_loop.1 ht
  obtain ⟨hmention, hassign, -⟩ := of_isSinkable hsink
  have hnew : env.lookup h.var = none := htidy.bound h.var hfresh.1
  have hrounds : 0 < n.toInt.toNat := by
    have := hpos n hn
    omega
  -- every round is cut, and its second part has the trace that it has behind the loop
  have hround : ∀ k < n.toInt.toNat, ∃ a b,
      (∃ e, c.traceAll (env.turn h k) lay before = some (a, e)) ∧
      c.traceAll env lay after = some (b, env) ∧ Closes lay b ∧
      Equiv lay (scope lay (g k)) (scope lay a ++ b) := by
    intro k hk
    obtain ⟨e, he⟩ := hg k hk
    obtain ⟨a, b, e₁, e₂, ha, hb, heq⟩ := traceAll_cut
      (htidy.bind_index h.var (Int64.ofNat k)) hfresh.2 hprivate he
    obtain ⟨e₃, hb'⟩ := traceAll_unmentioned c.calls_closed hmention
      ((FreshAll.append_iff.1 hfresh.2).2.not_mem_binders (by simp)) hnew hb
    obtain ⟨rfl, hclose, -⟩ :=
      traceAll_assigning c.calls_closed hassign (Env.Inner.refl lay.length env) hb'
    refine ⟨a, b, ⟨e₁, ha⟩, hb', hclose, heq.trans ?_⟩
    exact .append_closes (scope_traceAll_closes c.calls_closed ha) (.refl _ _)
      (.scope_of_closes hclose)
  obtain ⟨-, b, -, hb, hclose, -⟩ := hround 0 hrounds
  have hround' : ∀ k < n.toInt.toNat, ∃ a,
      (∃ e, c.traceAll (env.turn h k) lay before = some (a, e)) ∧
      Equiv lay (scope lay (g k)) (scope lay a ++ b) := by
    intro k hk
    obtain ⟨a, b', ha, hb', -, heq⟩ := hround k hk
    obtain ⟨rfl, -⟩ := Prod.mk.inj (Option.mem_unique hb hb')
    exact ⟨a, ha, heq⟩
  choose! a ha heq using hround'
  have hfirst : ∀ k < n.toInt.toNat, Closes lay (scope lay (a k)) := fun k hk =>
    scope_traceAll_closes c.calls_closed (ha k hk).choose_spec
  have hloop : (Stmt.loop h before).trace .checked c c.calls env lay =
      some ((List.range n.toInt.toNat).flatMap fun k => scope lay (a k), env) :=
    trace_loop.2 ⟨n, a, hn, ha, rfl⟩
  have hbehind : lay.after ((List.range n.toInt.toNat).flatMap fun k => scope lay (a k)) = lay :=
    ((trace_grows c.calls_closed hloop).1 rfl).1.after
  refine ⟨_, traceAll_cons.2 ⟨_, env, b, env, hloop, by rwa [hbehind], rfl⟩, ?_⟩
  refine (Equiv.flatMap (fun k hk => ?_) fun k hk => heq k (List.mem_range.1 hk)).trans ?_
  · obtain ⟨e, he⟩ := hg k (List.mem_range.1 hk)
    exact scope_traceAll_closes c.calls_closed he
  obtain ⟨e, he⟩ := ha 0 hrounds
  refine Equiv.sink hrounds hfirst hclose (apart_of_isSinkable htidy hsink hn hrounds he hb).1
    fun k hk p hp => ?_
  obtain ⟨e, he⟩ := ha k hk
  refine (apart_of_isSinkable htidy hsink hn hk he hb).2 p ?_
  simpa [scope, touched, Action.touched] using hp

end loops

/-! ## Kernels -/

variable {α : Type} [Element α]

/-- **Sinking a part that does not depend on the round keeps results.** A loop of a valid kernel runs
at least once, and the second part of its body may be sunk and uses no allocation of the first part.
The second part may run once behind the loop: wherever the kernel runs to its end it does so with the
same tensors. -/
theorem Proc.run_sunk {p : Proc} {c : Catalog} {args : Args α} {templates : Scope.Templates}
    {path : Path} {h : Header} {before after : Block} (hvalid : p.problems templates = [])
    (hstmt : p.stmt? path = some (.loop h (before ++ after)))
    (hpos : h.bound.isPositive p.sizes = true) (hsink : isSinkable h.var before after = true)
    (hprivate : checkPrivate before after = .ok ()) (hrun : (p.run c args).1 = .ok ()) :
    ∃ b, p.body.replace? path (.loop h before :: after) = some b ∧
      { p with body := b }.run c args = (.ok (), (p.run c args).2) := by
  obtain ⟨b, hreplace, hrel⟩ := Block.replaced_of_get? (.loop h before :: after) hstmt
  have hfresh := Proc.freshAll hvalid
  have hsame : { p with body := b }.run c args = p.run c args := by
    refine Proc.run_replaced hfresh rfl hrel (fun seen env st acts hreach htidy hs ht => ?_) hrun
    obtain ⟨acts', ht', heq⟩ := Stmt.trace_sunk htidy hs hprivate hsink
      (fun n hn => hreach.one_le_of_isPositive hfresh hpos hn) ht
    exact ⟨acts', ht', heq.toIn α⟩
  exact ⟨b, hreplace, hsame.trans (Prod.ext hrun rfl)⟩

/-- Adds up rows, and keeps a copy of the sums after each row. -/
def runningSums : Proc where
  name := "running_sums"
  params := [.size "n", .buffer ⟨"A", .f32, [.var "n", .int 2], .dram⟩,
    .buffer ⟨"S", .f32, [.int 2], .dram⟩, .buffer ⟨"L", .f32, [.int 2], .dram⟩]
  body := [.loop ⟨"k", .var "n", .seq⟩ [
    .loop ⟨"i", .int 2, .seq⟩ [.store .add "S" [.var "i"] (.read "A" [.var "k", .var "i"])],
    .loop ⟨"i", .int 2, .seq⟩ [.store .set "L" [.var "i"] (.read "S" [.var "i"])]]]

/-- Only the copy after the last row is left to be seen. -/
theorem runningSums_sunk :
    let args : Args Float := ⟨[("n", 2)], [("A", ⟨.f32, [2, 2], #[1, 2, 3, 4]⟩),
      ("S", ⟨.f32, [2], #[0, 0]⟩), ("L", ⟨.f32, [2], #[0, 0]⟩)]⟩
    let add : Stmt :=
      .loop ⟨"i", .int 2, .seq⟩ [.store .add "S" [.var "i"] (.read "A" [.var "k", .var "i"])]
    let copy : Stmt := .loop ⟨"i", .int 2, .seq⟩ [.store .set "L" [.var "i"] (.read "S" [.var "i"])]
    isSinkable "k" [add] [copy] = true ∧ (runningSums.run {} args).1 = .ok () ∧
      runningSums.fissionAfter "S[_] += _" 2 =
        .ok { runningSums with body := [.loop ⟨"k", .var "n", .seq⟩ [add], copy] } ∧
      ∃ b, runningSums.body.replace? [0] (.loop ⟨"k", .var "n", .seq⟩ [add] :: [copy]) = some b ∧
        { runningSums with body := b }.run {} args = (.ok (), (runningSums.run {} args).2) := by
  intro args add copy
  have hvalid : runningSums.problems (some (Catalog.find? {})) = [] := rfl
  have hsink : isSinkable "k" [add] [copy] = true := rfl
  have hrun : (runningSums.run {} args).1 = .ok () := rfl
  have hpick : runningSums.pickStmt "S[_] += _" = .ok [0, 0, 0] := by cbv
  refine ⟨hsink, hrun, ?_, Proc.run_sunk hvalid rfl rfl hsink rfl hrun⟩
  rw [Proc.fissionAfter, hpick]
  rfl

/-- Copies from a temporary of the round. -/
def lastCopy : Proc where
  name := "last_copy"
  params := [.buffer ⟨"x", .f32, [.int 1], .dram⟩]
  body := [.loop ⟨"k", .int 2, .seq⟩ [.alloc ⟨"t", .f32, [.int 1], .dram⟩,
    .store .set "t" [.int 0] (.int 1), .store .set "x" [.int 0] (.read "t" [.int 0])]]

/-- Behind the loop the temporary is gone: nothing but the check for allocations that are used on both
sides of the cut keeps the copy in the loop. -/
theorem lastCopy_sunk :
    let before : Block := [.alloc ⟨"t", .f32, [.int 1], .dram⟩, .store .set "t" [.int 0] (.int 1)]
    let after : Block := [.store .set "x" [.int 0] (.read "t" [.int 0])]
    let q : Proc := { lastCopy with body := .loop ⟨"k", .int 2, .seq⟩ before :: after }
    let args : Args Float := ⟨[], [("x", ⟨.f32, [1], #[0]⟩)]⟩
    lastCopy.problems (some (Catalog.find? {})) = [] ∧
      lastCopy.stmt? [0] = some (.loop ⟨"k", .int 2, .seq⟩ (before ++ after)) ∧
      (Expr.int 2).isPositive lastCopy.sizes = true ∧ isSinkable "k" before after = true ∧
      (lastCopy.run {} args).1 = .ok () ∧
      lastCopy.body.replace? [0] (.loop ⟨"k", .int 2, .seq⟩ before :: after) = some q.body ∧
      (q.run {} args).1 = failWith (.unknownName "t") := by
  intro before after q args
  exact ⟨rfl, rfl, rfl, rfl, rfl, rfl, rfl⟩

end LoopNest
