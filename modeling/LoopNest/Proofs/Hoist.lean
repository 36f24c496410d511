import LoopNest.Proofs.CopyNest
import LoopNest.Proofs.Fission
import LoopNest.Proofs.Reached
import LoopNest.Proofs.Trace.Substitute

/-!
# Copies that are undone move out of a loop

The first part of a loop copies elements of some buffers to others, and the second part copies them
back at its end. From the second round on the copies store what is there already, so they may run
once, ahead of the loop (`Proc.run_hoisted`).

What is there is what was copied back, rounded to the type of the source. Rounding it once more to
the type of the target has to give what the target held, so the claim needs types that go there and
back without loss (`RoundTrips`); with a source of a narrower type it fails (`halfSteps_hoisted`).
-/

namespace LoopNest

open Stmt Evaluator

variable {α : Type} [Element α]
variable {a : List Action} {f : Nat → List Action} {ext : Layout}

/-! ## Rounds with an idle first part -/

theorem perform_eq_self {acts : List Action} {st : Store α} (h : ∀ a ∈ acts, a.perform st = st) :
    perform acts st = st := by
  induction acts with
  | nil => rfl
  | cons a acts ih =>
    rw [perform_cons, h a (.head _)]
    exact ih fun b hb => h b (.tail _ hb)

/-- **A first part that is idle from the second round on may run once, ahead of all rounds.** `P` is
what the first part brings about and the rest of every round keeps. -/
theorem EquivIn.hoist {lay : Layout} {n : Nat} (hn : 0 < n)
    (ha : Closes lay a) (hf : ∀ k < n, Closes lay (f k)) {P : Store α → Prop}
    (hfirst : ∀ st : Store α, st.layout = lay → P (perform a st))
    (hround : ∀ k < n, ∀ st : Store α, st.layout = lay → P st →
      P (perform (f k) st) ∧ perform a (perform (f k) st) = perform (f k) st) :
    EquivIn α lay ((List.range n).flatMap fun k => a ++ f k) (a ++ (List.range n).flatMap f) := by
  have hrest : Closes lay ((List.range n).flatMap f) :=
    .flatMap fun k hk => hf k (List.mem_range.1 hk)
  have hall : Closes lay ((List.range n).flatMap fun k => a ++ f k) :=
    .flatMap fun k hk => ha.append (hf k (List.mem_range.1 hk))
  refine ⟨by rw [hall.after, (ha.append hrest).after], fun st hst => ?_⟩
  have hst₁ : Store.layout (perform a st) = lay := by rw [layout_perform, hst, ha.after]
  -- after any number of rounds but none, the next first part would be idle
  have hrounds : ∀ m, m + 1 ≤ n → ∃ s : Store α,
      perform ((List.range (m + 1)).flatMap fun k => a ++ f k) st = s ∧
        perform ((List.range (m + 1)).flatMap f) (perform a st) = s ∧
          s.layout = lay ∧ P s ∧ perform a s = s := by
    intro m hm
    induction m with
    | zero =>
      obtain ⟨hP, hidle⟩ := hround 0 hm _ hst₁ (hfirst st hst)
      refine ⟨perform (f 0) (perform a st), by simp, by simp, ?_, hP, hidle⟩
      rw [layout_perform, hst₁, (hf 0 hm).after]
    | succ m ih =>
      obtain ⟨s, hs, hs', hlay, hP, hidle⟩ := ih (by omega)
      obtain ⟨hP', hidle'⟩ := hround (m + 1) (by omega) s hlay hP
      refine ⟨perform (f (m + 1)) s, ?_, ?_, ?_, hP', hidle'⟩
      · rw [List.range_succ, List.flatMap_append, perform_append, hs]
        simp [hidle]
      · rw [List.range_succ, List.flatMap_append, perform_append, hs']
        simp
      · rw [layout_perform, hlay, (hf (m + 1) (by omega)).after]
  obtain ⟨m, rfl⟩ : ∃ m, n = m + 1 := ⟨n - 1, by omega⟩
  obtain ⟨s, hs, hs', -⟩ := hrounds m .refl
  rw [hs, perform_append, hs']

/-! ## What a place holds -/

namespace Store

variable {st : Store α} {p : Place} {x : α} {ty : Scalar}

theorem modifyAt_eq_self (hty : (st.layout[p.1]?).map (·.ty) = some ty) (hx : st.at? p = some x)
    {f : α → α} (hf : Element.round ty (f x) = x) : st.modifyAt p f = st := by
  refine ext_at (layout_modifyAt st p f) fun q => ?_
  by_cases hq : q = p
  · rw [hq, at?_modifyAt_self hty hx, hf, hx]
  · rw [at?_modifyAt_of_ne hq]

end Store

section places

variable {st : Store α} {n : Nat} {p : Place} {ty : Scalar}
variable {acts : List Action}

/-- The slots of old tensors stay as they are. -/
theorem Layout.getElem?_after {lay : Layout} {i : Nat} (hi : i < n) (hn : n ≤ lay.length)
    (hmarks : ∀ m, Action.release m ∈ acts → n ≤ m) :
    (lay.after acts)[i]? = lay[i]? ∧ n ≤ (lay.after acts).length := by
  induction acts generalizing lay with
  | nil => exact ⟨rfl, hn⟩
  | cons a acts ih =>
    have hstep : n ≤ (a.relayout lay).length ∧ (a.relayout lay)[i]? = lay[i]? := by
      cases a with
      | store u q t => exact ⟨hn, rfl⟩
      | alloc ty shape size =>
        simp only [Action.relayout, List.length_append]
        exact ⟨by omega, List.getElem?_append_left (by omega)⟩
      | release m =>
        have hm := hmarks m (.head _)
        simp only [Action.relayout, List.length_take]
        exact ⟨by omega, List.getElem?_take_of_lt (by omega)⟩
    obtain ⟨hslot, hlen⟩ := ih hstep.1 fun m hm => hmarks m (.tail _ hm)
    exact ⟨hslot.trans hstep.2, hlen⟩

/-- **A place that was stored to holds a rounded value** from then on. -/
theorem at?_perform_rounded (hp : p.1 < n) (hn : n ≤ st.length)
    (hmarks : ∀ m, Action.release m ∈ acts → n ≤ m) (hty : (st.layout[p.1]?).map (·.ty) = some ty)
    (hsome : ∃ x, st.at? p = some x)
    (h : (∃ u t, Action.store u p t ∈ acts) ∨ ∃ y : α, st.at? p = some (Element.round ty y)) :
    ∃ y : α, (perform acts st).at? p = some (Element.round ty y) := by
  induction acts generalizing st with
  | nil => exact h.resolve_left (by simp)
  | cons a acts ih =>
    obtain ⟨x, hx⟩ := hsome
    have hone : ∀ m, Action.release m ∈ [a] → n ≤ m :=
      fun m hm => hmarks m (List.mem_cons.2 (.inl (List.mem_singleton.1 hm)))
    rw [← Store.length_layout] at hn
    obtain ⟨hslot, hlen⟩ := Layout.getElem?_after hp hn hone
    have hlay : Store.layout (a.perform st) = st.layout.after [a] := layout_performAction a st
    rw [Store.length_layout] at hn
    rw [← hlay] at hslot hlen
    rw [Store.length_layout] at hlen
    -- the action stores to the place, or it leaves it as it is
    have hcase : (∃ y : α, (a.perform st).at? p = some (Element.round ty y)) ∨
        (∀ u t, a ≠ .store u p t) ∧ (a.perform st).at? p = some x := by
      by_cases hw : p ∈ a.written
      · left
        cases a with
        | store u q t =>
          obtain rfl : p = q := by simpa [Action.written] using hw
          cases u <;> exact ⟨_, Store.at?_modifyAt_self hty hx _⟩
        | _ => cases hw
      · right
        have hkeep := at?_perform_of_not_written hp hn hone (by simpa [written] using hw)
        exact ⟨fun u t ha => hw (by simp [ha, Action.written]), by rw [← hx, ← hkeep]; rfl⟩
    rw [perform_cons]
    refine ih hlen (fun m hm => hmarks m (.tail _ hm)) (hslot ▸ hty) ?_ ?_
    · exact hcase.elim (fun hy => ⟨_, hy.choose_spec⟩) fun h => ⟨x, h.2⟩
    · obtain hy | ⟨hne, hkeep⟩ := hcase
      · exact .inr hy
      · obtain ⟨u, t, hmem⟩ | ⟨y, hy⟩ := h
        · exact .inl ⟨u, t, (List.mem_cons.1 hmem).resolve_left fun h => hne u t h.symm⟩
        · exact .inr ⟨y, by rw [hkeep, ← hx, hy]⟩

/-- Copies, one of them from `p` to `q` and no other one to either of them, leave at `q` what is at
`p`, rounded. -/
theorem at?_perform_copies {q : Place} (hp : p.1 < n) (hq : q.1 < n) (hn : n ≤ st.length)
    (hacts : ∀ a ∈ acts, (∃ m, a = .release m ∧ n ≤ m) ∨
      ∃ q' p', a = .store .set q' (.load p') ∧ q' ≠ p ∧ (q' = q → p' = p))
    (hty : (st.layout[q.1]?).map (·.ty) = some ty) {x z : α} (hx : st.at? p = some x)
    (hz : st.at? q = some z)
    (h : Action.store .set q (.load p) ∈ acts ∨ z = Element.round ty x) :
    (perform acts st).at? p = some x ∧ (perform acts st).at? q = some (Element.round ty x) := by
  induction acts generalizing st z with
  | nil =>
    obtain rfl := h.resolve_left (by simp)
    exact ⟨hx, hz⟩
  | cons a acts ih =>
    have hrest := fun b hb => hacts b (.tail _ hb)
    rw [perform_cons]
    obtain ⟨m, rfl, hm⟩ | ⟨q', p', rfl, hne, hsame⟩ := hacts a (.head _)
    · have hslot : (Store.layout (st.take m))[q.1]? = st.layout[q.1]? := by
        rw [Store.layout, List.map_take, List.getElem?_take_of_lt (by omega), ← Store.layout]
      refine ih (z := z) ?_ hrest ?_ ?_ ?_ (h.imp_left fun h => ?_)
      · simp only [Action.perform, List.length_take]
        omega
      · rw [Action.perform, hslot, hty]
      · rw [Action.perform, Store.at?_take (by omega), hx]
      · rw [Action.perform, Store.at?_take (by omega), hz]
      · exact (List.mem_cons.1 h).resolve_left (by simp)
    · have hlay := st.layout_modifyAt q' fun _ => (Term.load p').eval st
      have hlen : n ≤ (st.modifyAt q' fun _ => (Term.load p').eval st).length := by
        rwa [← Store.length_layout, hlay, Store.length_layout]
      have hx' : (st.modifyAt q' fun _ => (Term.load p').eval st).at? p = some x := by
        rw [Store.at?_modifyAt_of_ne hne.symm, hx]
      by_cases hqq : q' = q
      · -- this copy goes to `q`, so it comes from `p`
        obtain rfl := hqq
        obtain rfl := hsame rfl
        have hz' := Store.at?_modifyAt_self hty hz fun _ => (Term.load p').eval st
        have hload : (Term.load p').eval st = x := by simp [Term.eval, hx]
        exact ih hlen hrest (hlay ▸ hty) hx' hz' (.inr (by rw [hload]))
      · have hz' : (st.modifyAt q' fun _ => (Term.load p').eval st).at? q = some z := by
          rw [Store.at?_modifyAt_of_ne (Ne.symm hqq), hz]
        refine ih hlen hrest (hlay ▸ hty) hx' hz' (h.imp_left fun h => ?_)
        refine (List.mem_cons.1 h).resolve_left fun heq => hqq ?_
        exact (Action.store.inj heq).2.1.symm

end places

/-! ## Copies and their undoing -/

section copies

variable {c : Catalog} {seen : List String} {env₀ env e : Env} {lay : Layout} {cn : CopyNest}
  {s : Stmt} {acts b : List Action} {after : Block}

/-- All that is bound before a block that declares only new names is bound alike after it. -/
theorem Stmt.extendedBy_of_traceAll {b : Block} (htidy : env.Tidy seen lay)
    (hfresh : FreshAll seen b) (h : c.traceAll env lay b = some (acts, e)) : env.ExtendedBy e := by
  induction b generalizing seen env lay acts with
  | nil =>
    obtain ⟨-, rfl⟩ := Prod.mk.inj (traceAll_nil.1 h)
    exact fun _ _ hx => hx
  | cons s rest ih =>
    obtain ⟨a, e₁, a', e₂, hs, hrest, ⟨⟩⟩ := traceAll_cons.1 h
    have hhead : env.ExtendedBy e₁ := by
      cases s with
      | alloc d =>
        obtain ⟨shape, size, -, -, ⟨⟩⟩ := trace_alloc.1 hs
        exact .bind_new (htidy.bound d.name hfresh.1) _
      | _ =>
        rw [((trace_grows c.calls_closed hs).1 rfl).2]
        exact fun _ _ hx => hx
    exact hhead.trans (ih (htidy.trace c.calls_closed hs) hfresh.2 hrest)

/-- What is bound after a block, apart from its own allocations, was bound before it. -/
theorem Stmt.inner_of_traceAll {b : Block} (h : c.traceAll env lay b = some (acts, e)) :
    Env.Inner lay.length [] env e := by
  have hlook := lookup_of_traceAll c.calls_closed h
  refine ⟨fun x v hv hlt => ?_, fun x k hk _ => ?_, by simp⟩
  · obtain ⟨-, heq⟩ | ⟨-, w, hw, hge, -⟩ := hlook x
    · rwa [Env.view?, ← heq]
    · obtain rfl : w = v := by simpa [Env.view?, hw] using hv
      omega
  · obtain ⟨-, heq⟩ | ⟨-, w, hw, -⟩ := hlook x
    · rwa [Env.value?, ← heq]
    · simp [Env.value?, hw] at hk

variable {p q : Place} {inner : Env}

/-- A place that is written by a block belongs to a buffer that the block writes. -/
theorem Stmt.not_written_of_accesses (hplain : env.Plain lay) {mid : Env}
    (hinner : Env.Inner lay.length [] env mid) {rest : Block}
    (h : c.traceAll mid (lay ++ ext) rest = some (acts, e)) {buf : String} {v : View}
    (hv : env.view? buf = some v)
    (hbuf : ∀ a ∈ Access.ofBlock [] rest, a.write = true → a.buf ≠ buf) (hp : p.1 = v.tensor) :
    p ∉ written acts := by
  intro hw
  have hlt : p.1 < lay.length := hp ▸ hplain.lt buf v hv
  obtain ⟨a, ha, hwrite, inner, hin, w, slot, cs, hw', htensor, -⟩ :=
    traceAll_covered c.calls_closed c.calls_confined rest hinner rfl h true p hlt hw
  have hview := hin.view _ w hw' (htensor ▸ hlt)
  exact hbuf a ha (hwrite rfl) (hplain.inj _ _ w v hview hv (htensor.trans hp))

/-- The copies of a nest go from one tensor to another one. -/
theorem CopyNest.Spells.tensors (hs : cn.Spells s) (hplain : env.Plain lay)
    (hi : Env.Iterates .checked cn.loops env inner)
    (hp : checked.place inner lay cn.dst cn.dstIdx = some p)
    (hq : checked.load inner lay cn.src cn.srcIdx = some q) :
    ∃ v w, env.view? cn.dst = some v ∧ env.view? cn.src = some w ∧ p.1 = v.tensor ∧
      q.1 = w.tensor ∧ v.tensor ≠ w.tensor := by
  have hview : ∀ {buf : String} {idx : List Expr} {r : Place},
      checked.place inner lay buf idx = some r →
        ∃ v, env.view? buf = some v ∧ r.1 = v.tensor := by
    intro buf idx r hr
    obtain ⟨⟨v, hv, htensor⟩, hlt⟩ := view_of_place hr
    exact ⟨v, (hi.toInner lay.length).view buf v hv (htensor ▸ hlt), htensor.symm⟩
  obtain ⟨v, hv, hpv⟩ := hview hp
  obtain ⟨w, hw, hqw⟩ := hview (load_eq_some.1 hq).1
  exact ⟨v, w, hv, hw, hpv, hqw, fun h => hs.src_ne_dst (hplain.inj _ _ w v hw hv h.symm)⟩

/-- Different iterations of an injective nest copy from different places. -/
theorem CopyNest.iterates_inj (hinj : cn.isInjective = true) (hplain : env.Plain lay)
    (hclear : ∀ x ∈ cn.loops.map (·.1), env.value? x = none) {inner' : Env}
    (hi : Env.Iterates .checked cn.loops env inner)
    (hi' : Env.Iterates .checked cn.loops env inner')
    (hq : checked.load inner lay cn.src cn.srcIdx = some q)
    (hq' : checked.load inner' lay cn.src cn.srcIdx = some q) :
    ∀ x, inner.lookup x = inner'.lookup x := by
  refine hi.lookup_eq hi' fun x hx => ?_
  have hlt := (view_of_place (load_eq_some.1 hq).1).2
  let source : Access :=
    ⟨cn.src, cn.srcIdx.map some, true, cn.loops.map fun l => (l.1, l.2.constant?)⟩
  have hin : Env.Inner lay.length ([] ++ source.loops) env inner := hi.toInner _
  have hin' : Env.Inner lay.length ([] ++ source.loops) env inner' := hi'.toInner _
  have hhits : ∀ {inner : Env}, checked.load inner lay cn.src cn.srcIdx = some q →
      source.Hits .checked inner lay q := fun hq =>
    hits_of_place (List.append_nil lay).symm hlt (load_eq_some.1 hq).1 _ _
  refine (Access.Hits.pinned_agree hplain hlt hin hin' ?_ (hhits hq) (hhits hq')).2 x ?_
  · intro y hy
    refine hclear y ?_
    simpa [source] using hy
  · simp only [isInjective, List.all_eq_true, List.contains_iff_mem] at hinj
    obtain ⟨l, hl, rfl⟩ := List.mem_map.1 hx
    exact hinj _ (List.mem_map.2 ⟨l, hl, rfl⟩)

/-- The nest that undoes the copies of another one copies from `p` to `q` in the iteration in which
that one copies from `q` to `p`. In all others it stores elsewhere. -/
theorem CopyNest.Spells.undoing (hs : cn.Spells s)
    (ht : s.trace .checked c c.calls env lay = some (acts, env)) (hplain : env.Plain lay)
    (hclear : ∀ x ∈ cn.loops.map (·.1), env.value? x = none) (hinj : cn.isInjective = true)
    {r : CopyNest} {t : Stmt} (hr : r.Spells t) (hundoes : r.undoes cn = true) {env' : Env}
    (hext : env.ExtendedBy env') {back : List Action}
    (hback : t.trace .checked c c.calls env' (lay ++ ext) = some (back, env'))
    (hi : Env.Iterates .checked cn.loops env inner)
    (hp : checked.place inner lay cn.dst cn.dstIdx = some p)
    (hq : checked.load inner lay cn.src cn.srcIdx = some q) :
    Action.store .set q (.load p) ∈ back ∧
      (∃ slot, (lay ++ ext)[p.1]? = some slot ∧ p.2 < slot.size) ∧
      ∀ a ∈ back, (∃ m, a = .release m ∧ lay.length ≤ m) ∨
        ∃ q' p', a = .store .set q' (.load p') ∧ q' ≠ p ∧ (q' = q → p' = p) := by
  obtain ⟨hloops, hdst, hdstIdx, hsrc, hsrcIdx⟩ := CopyNest.of_undoes hundoes
  obtain ⟨hforth, hfrom⟩ := hs.iterates hr hloops hext ht hback
  obtain ⟨inner', hi', hin⟩ := hforth inner hi
  obtain ⟨q', p', hq', hp', hmem⟩ := hr.mem_trace hback hi'
  rw [hdst] at hq'
  rw [hsrc] at hp'
  obtain rfl := place_of_sameIndex hin hdstIdx (load_eq_some.1 hq).1 hq'
  obtain rfl := place_of_sameIndex hin hsrcIdx hp (load_eq_some.1 hp').1
  refine ⟨hmem, (load_eq_some.1 hp').2, fun a ha => ?_⟩
  obtain rfl | ⟨inner₂, q₂, p₂, hi₂, hq₂, hp₂, rfl⟩ := hr.of_mem_trace hback ha
  · exact .inl ⟨_, rfl, by rw [List.length_append]; omega⟩
  -- the iteration belongs to one of the nest that is undone
  obtain ⟨inner₀, hi₀, hin₀⟩ := hfrom inner₂ hi₂
  obtain ⟨p₀, q₀, hp₀, hq₀, -⟩ := hs.mem_trace ht hi₀
  rw [hdst] at hq₂
  rw [hsrc] at hp₂
  obtain rfl := place_of_sameIndex hin₀ hdstIdx (load_eq_some.1 hq₀).1 hq₂
  obtain rfl := place_of_sameIndex hin₀ hsrcIdx hp₀ (load_eq_some.1 hp₂).1
  refine .inr ⟨q₂, p₂, rfl, ?_, ?_⟩
  · obtain ⟨v, w, -, hw, hpv, -, hne⟩ := hs.tensors hplain hi hp hq
    obtain ⟨-, w', -, hw', -, hqw', -⟩ := hs.tensors hplain hi₀ hp₀ hq₀
    obtain rfl : w = w' := Option.mem_unique hw hw'
    exact fun heq => hne (by rw [← hpv, ← hqw', heq])
  · rintro rfl
    have hlook := CopyNest.iterates_inj hinj hplain hclear hi₀ hi hq₀ hq
    have hview : ∀ x, inner.view? x = inner₀.view? x := fun x => by
      rw [Env.view?, Env.view?, hlook x]
    have hkeep : checked.Keeps inner₀ inner id :=
      .of_value? fun {x n} hx => by rwa [Env.value?, ← hlook x]
    have hsame := hkeep.place hview hp₀
    rw [List.map_id] at hsame
    exact Option.mem_unique hsame hp

/-- **After a round, what a copy would store is there already.** The nest is undone in the second part
of the round, and nothing after that stores to the two places. -/
theorem CopyNest.Spells.settled (hs : cn.Spells s)
    (ht : s.trace .checked c c.calls env₀ lay = some (acts, env₀)) (hplain : env₀.Plain lay)
    (hclear : ∀ x ∈ cn.loops.map (·.1), env₀.value? x = none) (hext : env₀.ExtendedBy env)
    (htidy : env.Tidy seen lay) (hfresh : FreshAll seen after)
    (hundone : cn.isUndoneBy after = true) (hb : c.traceAll env lay after = some (b, e))
    (hi : Env.Iterates .checked cn.loops env₀ inner)
    (hp : checked.place inner lay cn.dst cn.dstIdx = some p)
    (hq : checked.load inner lay cn.src cn.srcIdx = some q) :
    (∃ slot, lay[p.1]? = some slot ∧ p.2 < slot.size) ∧
      ∀ (st : Store α) (ty : Scalar), st.layout = lay → (lay[q.1]?).map (·.ty) = some ty →
        ∃ x, (perform (scope lay b) st).at? p = some x ∧
          (perform (scope lay b) st).at? q = some (Element.round ty x) := by
  obtain ⟨front, t, rest, r, rfl, hr, hundoes, hinj, hwrites⟩ := CopyNest.of_isUndoneBy hundone
  have hspells := CopyNest.spells_of_ofStmt? hr
  -- the second part: what comes first, the nest that undoes the copies, and the rest
  obtain ⟨x₁, e₁, x₂, e₂, hfront, htail, ⟨⟩⟩ := traceAll_append.1 hb
  obtain ⟨x₃, e₃, x₄, e₄, hback, hrest, ⟨⟩⟩ := traceAll_cons.1 htail
  obtain ⟨hclose, rfl⟩ := (trace_grows c.calls_closed hback).1 hspells.decl?_eq_none
  obtain ⟨ext, hlay⟩ := (traceAll_grows c.calls_closed _ hfront).after
  rw [hclose.after, hlay] at hrest
  rw [hlay] at hback hclose
  have hext' : env₀.ExtendedBy e₃ := hext.trans
    (extendedBy_of_traceAll htidy (FreshAll.append_iff.1 hfresh).1 hfront)
  obtain ⟨hmem, ⟨pslot, hpslot, hpsize⟩, hothers⟩ :=
    hs.undoing ht hplain hclear hinj hspells hundoes hext' hback hi hp hq
  obtain ⟨v, w, hv, hw, hpv, hqw, -⟩ := hs.tensors hplain hi hp hq
  have hplt : p.1 < lay.length := hpv ▸ hplain.lt _ v hv
  have hqlt : q.1 < lay.length := hqw ▸ hplain.lt _ w hw
  have hpold : (lay ++ ext)[p.1]? = lay[p.1]? := List.getElem?_append_left hplt
  have hqold : (lay ++ ext)[q.1]? = lay[q.1]? := List.getElem?_append_left hqlt
  refine ⟨⟨pslot, hpold ▸ hpslot, hpsize⟩, fun st ty hst hty => ?_⟩
  have hlay₁ : Store.layout (perform x₁ st) = lay ++ ext := by rw [layout_perform, hst, hlay]
  have hlay₃ : Store.layout (perform x₃ (perform x₁ st)) = lay ++ ext := by
    rw [layout_perform, hlay₁, hclose.after]
  have hlength : ∀ {st : Store α}, st.layout = lay ++ ext → lay.length ≤ st.length := fun hst => by
    rw [← Store.length_layout, hst, List.length_append]
    omega
  obtain ⟨qslot, hqslot, hqsize⟩ := (load_eq_some.1 hq).2
  rw [← hqold, ← hlay₁] at hqslot hty
  obtain ⟨x, hx⟩ := Store.at?_of_slot (hlay₁ ▸ hpslot) hpsize
  obtain ⟨z, hz⟩ := Store.at?_of_slot hqslot hqsize
  obtain ⟨hx', hz'⟩ := at?_perform_copies hplt hqlt (hlength hlay₁) hothers hty hx hz (.inl hmem)
  -- nothing after it writes to either place
  have hinner := inner_of_traceAll hfront
  have hkept : ∀ {r : Place}, r.1 < lay.length → r ∉ written x₄ →
      (perform (scope lay (x₁ ++ (x₃ ++ x₄))) st).at? r =
        (perform x₃ (perform x₁ st)).at? r := by
    intro r hr hw
    have hmarks : ∀ m, Action.release m ∈ x₄ → lay.length ≤ m := fun m hm => by
      have hm := (traceAll_grows c.calls_closed _ hrest).marks m hm
      rw [List.length_append] at hm
      omega
    rw [scope, perform_append, perform_append, perform_append]
    exact (Store.at?_take hr).trans (at?_perform_of_not_written hr (hlength hlay₃) hmarks hw)
  refine ⟨x, ?_, ?_⟩
  · rw [hkept hplt, hx']
    exact not_written_of_accesses htidy.plain hinner hrest (hext.view? hv)
      (fun a ha hwrite => (hwrites a ha hwrite).2) hpv
  · rw [hkept hqlt, hz']
    exact not_written_of_accesses htidy.plain hinner hrest (hext.view? hw)
      (fun a ha hwrite => (hwrites a ha hwrite).1) hqw

end copies

/-! ## Loops -/

/-- Rounding on the way to the type `s` loses nothing of a value that is rounded to the type `d`. -/
def RoundTrips (α : Type) [Element α] (d s : Scalar) : Prop :=
  ∀ x : α, Element.round d (Element.round s (Element.round d x)) = Element.round d x

/-- **Copies that every round settles may run once, ahead of all rounds.** After a round, the source
of a copy holds what the target holds, rounded to the type `s`; what the target of type `d` holds was
rounded when the first copy stored to it. -/
theorem EquivIn.hoist_copies {lay : Layout} {n : Nat}
    (hn : 0 < n) (ha : Closes lay a) (hf : ∀ k < n, Closes lay (f k))
    (hcopies : ∀ act ∈ a, act = .release lay.length ∨ ∃ p q slot s,
      act = .store .set p (.load q) ∧ lay[p.1]? = some slot ∧ p.2 < slot.size ∧
        RoundTrips α slot.ty s ∧ ∀ k < n, ∀ st : Store α, st.layout = lay →
          ∃ x, (perform (f k) st).at? p = some x ∧
            (perform (f k) st).at? q = some (Element.round s x)) :
    EquivIn α lay ((List.range n).flatMap fun k => a ++ f k) (a ++ (List.range n).flatMap f) := by
  have hlength : ∀ {st : Store α}, st.layout = lay → st.length = lay.length := fun hst => by
    rw [← Store.length_layout, hst]
  refine EquivIn.hoist (P := fun st => ∀ p slot, lay[p.1]? = some slot → p.2 < slot.size →
    (∃ q, Action.store .set p (.load q) ∈ a) → ∃ y : α, st.at? p = some (Element.round slot.ty y))
    hn ha hf (fun st hst p slot hslot hsize hmem => ?_) fun k hk st hst hP => ?_
  · obtain ⟨q, hq⟩ := hmem
    have hlt := (List.getElem?_eq_some_iff.1 hslot).1
    exact at?_perform_rounded hlt (hlength hst).ge ha.marks (by rw [hst, hslot]; rfl)
      (Store.at?_of_slot (hst ▸ hslot) hsize) (.inl ⟨_, _, hq⟩)
  · have hrounded : ∀ p slot, lay[p.1]? = some slot → p.2 < slot.size →
        (∃ q, Action.store .set p (.load q) ∈ a) →
          ∃ y : α, (perform (f k) st).at? p = some (Element.round slot.ty y) := by
      intro p slot hslot hsize hmem
      have hlt := (List.getElem?_eq_some_iff.1 hslot).1
      exact at?_perform_rounded hlt (hlength hst).ge (hf k hk).marks (by rw [hst, hslot]; rfl)
        (Store.at?_of_slot (hst ▸ hslot) hsize) (.inr (hP p slot hslot hsize hmem))
    have hlay : Store.layout (perform (f k) st) = lay := by
      rw [layout_perform, hst, (hf k hk).after]
    refine ⟨hrounded, perform_eq_self fun act hact => ?_⟩
    obtain rfl | ⟨p, q, slot, s, rfl, hslot, hsize, htrip, hsettled⟩ := hcopies act hact
    · exact List.take_of_length_le (hlength hlay).le
    · obtain ⟨x, hx, hq⟩ := hsettled k hk st hst
      obtain ⟨y, hy⟩ := hrounded p slot hslot hsize ⟨q, hact⟩
      obtain rfl : x = Element.round slot.ty y := Option.mem_unique hx hy
      refine Store.modifyAt_eq_self (by rw [hlay, hslot]; rfl) hx ?_
      simp only [Term.eval, hq, Option.getD_some]
      exact htrip y

theorem CopyNest.Spells.mem_binders {cn : CopyNest} {s : Stmt} (hs : cn.Spells s) {b : Block}
    (hb : s ∈ b) {x : String} (hx : x ∈ cn.loops.map (·.1)) : x ∈ b.binders := by
  have hnested : x ∈ s.nested.filterMap (·.binds?) := by
    clear hb
    induction hs with
    | store _ => cases hx
    | loop _ ih =>
      simp only [List.map_cons, List.mem_cons] at hx
      simp only [Stmt.nested, nestedAll, List.append_nil, List.filterMap_cons, binds?,
        List.mem_cons]
      exact hx.imp_right ih
  induction b with
  | nil => cases hb
  | cons t rest ih =>
    rw [Block.binders_cons, List.mem_append]
    obtain rfl | hb := List.mem_cons.1 hb
    · exact .inl hnested
    · exact .inr (ih hb)

/-- What may be hoisted mentions no loop variable and consists of nests that are undone. -/
theorem of_isHoistable {var : String} {before after : Block}
    (h : isHoistable var before after = true) :
    before.mentions var = false ∧
      ∀ s ∈ before, ∃ cn, CopyNest.ofStmt? s = some cn ∧ cn.isUndoneBy after = true := by
  simp only [isHoistable, Bool.and_eq_true, Bool.not_eq_true'] at h
  refine ⟨h.1, fun s hs => ?_⟩
  split at h
  · cases h.2
  next copies hcopies =>
    obtain ⟨cn, hcn, hs⟩ := exists_of_forall₂ (mapM_eq_some.1 hcopies).flip hs
    simp only [Bool.and_eq_true, List.all_eq_true] at h
    exact ⟨cn, hs, (h.2.2 cn hcn).2⟩

section loops

variable {c : Catalog} {seen : List String} {env e : Env} {lay : Layout} {before after : Block}
  {acts : List Action}

/-- The trace of nests one after the other. -/
theorem CopyNest.of_traceAll (hnests : ∀ s ∈ before, ∃ cn, CopyNest.ofStmt? s = some cn)
    (h : c.traceAll env lay before = some (acts, e)) :
    e = env ∧ Closes lay acts ∧ ∀ a ∈ acts, ∃ s ∈ before, ∃ x,
      s.trace .checked c c.calls env lay = some (x, env) ∧ a ∈ x := by
  induction before generalizing acts with
  | nil =>
    obtain ⟨⟩ := traceAll_nil.1 h
    exact ⟨rfl, .nil lay, by simp⟩
  | cons s rest ih =>
    obtain ⟨x, e₁, y, e₂, hs, hrest, ⟨⟩⟩ := traceAll_cons.1 h
    obtain ⟨cn, hcn⟩ := hnests s (.head _)
    obtain ⟨hclose, rfl⟩ := (trace_grows c.calls_closed hs).1
      (CopyNest.spells_of_ofStmt? hcn).decl?_eq_none
    rw [hclose.after] at hrest
    obtain ⟨rfl, hclose', hmem⟩ := ih (fun t ht => hnests t (.tail _ ht)) hrest
    refine ⟨rfl, hclose.append hclose', fun a ha => ?_⟩
    obtain ha | ha := List.mem_append.1 ha
    · exact ⟨s, .head _, x, hs, ha⟩
    · obtain ⟨t, ht, z, hz, haz⟩ := hmem a ha
      exact ⟨t, .tail _ ht, z, hz, haz⟩

/-- Every round of a loop starts with the trace that nests without its variable have ahead of it. -/
theorem CopyNest.trace_rounds {h : Header} {n : ℕ} {g : ℕ → List Action}
    (hnests : ∀ s ∈ before, ∃ cn, CopyNest.ofStmt? s = some cn)
    (hmention : before.mentions h.var = false) (hbinders : h.var ∉ before.binders)
    (hnew : env.lookup h.var = none) (hn : 0 < n)
    (hg : ∀ k < n, ∃ e, c.traceAll (env.turn h k) lay (before ++ after) = some (g k, e)) :
    ∃ (a : List Action) (b : ℕ → List Action), c.traceAll env lay before = some (a, env) ∧
      ∀ k < n, g k = a ++ b k ∧ ∃ e, c.traceAll (env.turn h k) lay after = some (b k, e) := by
  have hsplit : ∀ k < n, ∃ a b, g k = a ++ b ∧ c.traceAll env lay before = some (a, env) ∧
      ∃ e, c.traceAll (env.turn h k) lay after = some (b, e) := by
    intro k hk
    obtain ⟨e, he⟩ := hg k hk
    obtain ⟨a, e₁, b, e₂, ha, hb, hr⟩ := traceAll_append.1 he
    obtain ⟨hgk, rfl⟩ := Prod.mk.inj hr
    obtain ⟨rfl, hclose, -⟩ := CopyNest.of_traceAll hnests ha
    rw [hclose.after] at hb
    obtain ⟨e', ha'⟩ := traceAll_unmentioned c.calls_closed hmention hbinders hnew ha
    obtain ⟨rfl, -⟩ := CopyNest.of_traceAll hnests ha'
    exact ⟨a, b, hgk, ha', e, hb⟩
  obtain ⟨a, -, -, ha, -⟩ := hsplit 0 hn
  have hround : ∀ k < n, ∃ b, g k = a ++ b ∧
      ∃ e, c.traceAll (env.turn h k) lay after = some (b, e) := by
    intro k hk
    obtain ⟨a', b, hgk, ha', hb⟩ := hsplit k hk
    obtain ⟨rfl, -⟩ := Prod.mk.inj (Option.mem_unique ha ha')
    exact ⟨b, hgk, hb⟩
  choose! b hb using hround
  exact ⟨a, b, ha, hb⟩

/-- **A loop with a part that moves ahead of it.** -/
theorem Stmt.trace_hoisted {h : Header} (htidy : env.Tidy seen lay)
    (hfresh : (Stmt.loop h (before ++ after)).Fresh seen)
    (hhoist : isHoistable h.var before after = true)
    (hpos : ∀ n, checked.eval env h.bound = some n → 1 ≤ n.toInt)
    (htypes : ∀ s ∈ before, ∀ cn, CopyNest.ofStmt? s = some cn → ∀ v w,
      env.view? cn.dst = some v → env.view? cn.src = some w →
        ∃ d s, (lay[v.tensor]?).map (·.ty) = some d ∧ (lay[w.tensor]?).map (·.ty) = some s ∧
          RoundTrips α d s)
    (ht : (Stmt.loop h (before ++ after)).trace .checked c c.calls env lay = some (acts, env)) :
    ∃ acts', c.traceAll env lay (before ++ [.loop h after]) =
      some (acts', env) ∧ EquivIn α lay acts acts' := by
  obtain ⟨n, g, hn, hg, ⟨⟩⟩ := trace_loop.1 ht
  obtain ⟨hmention, hnests⟩ := of_isHoistable hhoist
  obtain ⟨hvar, hbody⟩ := hfresh
  obtain ⟨hbefore, hafter⟩ := FreshAll.append_iff.1 hbody
  have hnew : env.lookup h.var = none := htidy.bound h.var hvar
  have hnests' : ∀ s ∈ before, ∃ cn, CopyNest.ofStmt? s = some cn := fun s hs =>
    (hnests s hs).imp fun _ h => h.1
  have hrounds : 0 < n.toInt.toNat := by
    have := hpos n hn
    omega
  obtain ⟨a, b, ha, hround⟩ := CopyNest.trace_rounds hnests' hmention
    (hbefore.not_mem_binders (.head _)) hnew hrounds hg
  have hb := fun k hk => (hround k hk).2
  obtain ⟨-, hclose, hmem⟩ := CopyNest.of_traceAll hnests' ha
  have hloop : (Stmt.loop h after).trace .checked c c.calls env lay =
      some ((List.range n.toInt.toNat).flatMap fun k => scope lay (b k), env) :=
    trace_loop.2 ⟨n, b, hn, hb, rfl⟩
  refine ⟨_, traceAll_append.2 ⟨a, env, _, env, ha, traceAll_singleton.2
    (by rw [hclose.after, hloop]), rfl⟩, ?_⟩
  have hacts : ((List.range n.toInt.toNat).flatMap fun k => scope lay (g k)) =
      (List.range n.toInt.toNat).flatMap fun k => a ++ scope lay (b k) := by
    refine List.flatMap_congr fun k hk => ?_
    rw [(hround k (List.mem_range.1 hk)).1, scope, scope, List.append_assoc]
  rw [hacts]
  refine EquivIn.hoist_copies hrounds hclose (fun k hk => ?_) fun act hact => ?_
  · obtain ⟨e, he⟩ := hb k hk
    exact scope_traceAll_closes c.calls_closed he
  -- each action of the part that moves is a copy whose target the loop leaves settled
  obtain ⟨s, hs, x, hx, hact⟩ := hmem act hact
  obtain ⟨cn, hcn, hundone⟩ := hnests s hs
  have hspells := CopyNest.spells_of_ofStmt? hcn
  obtain rfl | ⟨inner, p, q, hi, hp, hq, rfl⟩ := hspells.of_mem_trace hx hact
  · exact .inl rfl
  obtain ⟨v, w, hv, hw, hpv, hqw, -⟩ := hspells.tensors htidy.plain hi hp hq
  obtain ⟨d, ty, hd, hty, htrip⟩ := htypes s hs cn hcn v w hv hw
  rw [← hpv] at hd
  rw [← hqw] at hty
  have hclear : ∀ y ∈ cn.loops.map (·.1), env.value? y = none := by
    intro y hy
    have hunseen : y ∉ seen := fun hseen =>
      hbefore.not_mem_binders (.tail _ hseen) (hspells.mem_binders hs hy)
    rw [Env.value?, htidy.bound y hunseen]
  have hsettled : ∀ k < n.toInt.toNat, _ := fun k hk =>
    hspells.settled (α := α) hx htidy.plain hclear (.bind_new hnew (.index (Int64.ofNat k)))
      (htidy.bind_index h.var _) (hafter.mono fun y hy => List.mem_append_right _ hy) hundone
      (hb k hk).choose_spec hi hp hq
  obtain ⟨⟨slot, hslot, hsize⟩, -⟩ := hsettled 0 hrounds
  obtain rfl : slot.ty = d := by simpa [hslot] using hd
  exact .inr ⟨p, q, slot, ty, rfl, hslot, hsize, htrip, fun k hk st hst =>
    (hsettled k hk).2 st ty hst hty⟩

end loops

/-! ## Kernels -/

/-- **Hoisting a restored copy keeps results.** A loop of a valid kernel runs at least once, and its
first part copies what its second part copies back. When values make the way from the type of each
target to that of its source and back, the first part may run once before the loop: wherever the
kernel runs to its end it does so with the same tensors. -/
theorem Proc.run_hoisted {p : Proc} {c : Catalog} {args : Args α} {templates : Scope.Templates}
    {path : Path} {h : Header} {before after : Block} (hvalid : p.problems templates = [])
    (hstmt : p.stmt? path = some (.loop h (before ++ after)))
    (hpos : h.bound.isPositive p.sizes = true) (hhoist : isHoistable h.var before after = true)
    (htypes : ∀ s ∈ before, ∀ cn, CopyNest.ofStmt? s = some cn → ∀ d s,
      p.visibleDecl? path cn.dst = some d → p.visibleDecl? path cn.src = some s →
        RoundTrips α d.ty s.ty)
    (hrun : (p.run c args).1 = .ok ()) :
    ∃ b, p.body.replace? path (before ++ [.loop h after]) = some b ∧
      { p with body := b }.run c args = (.ok (), (p.run c args).2) := by
  obtain ⟨b, hreplace, hrel⟩ := Block.replaced_of_get? (before ++ [.loop h after]) hstmt
  refine ⟨b, hreplace, ?_⟩
  have hfresh := Proc.freshAll hvalid
  rw [Proc.run_replaced hfresh rfl hrel (fun seen env st acts hreach htidy hs ht => ?_) hrun]
  · exact Prod.ext hrun rfl
  refine Stmt.trace_hoisted htidy hs hhoist
    (fun n hn => hreach.one_le_of_isPositive hfresh hpos hn) (fun s hs cn hcn v w hv hw => ?_) ht
  obtain ⟨d, hd, hdty⟩ := hreach.typed hvalid cn.dst v hv
  obtain ⟨e, he, hety⟩ := hreach.typed hvalid cn.src w hw
  exact ⟨d.ty, e.ty, hdty, hety, htypes s hs cn hcn d e hd he⟩

/-- Numbers with one binary digit after the point, as how often they hold one half. Integer types cut
the digit off. -/
def Halves : Type := Int

instance : Element Halves where
  ofWord n := (2 * n.toInt : Int)
  ofFloat _ := (0 : Int)
  add (x y : Int) := x + y
  sub (x y : Int) := x - y
  mul (x y : Int) := x * y / 2
  div (x y : Int) := 2 * x / y
  mod (x y : Int) := x % y
  neg (x : Int) := -x
  round ty (x : Int) :=
    match ty with
    | .f32 | .f64 => x
    | .i32 | .i8 => x / 2 * 2
  undefined := (0 : Int)

/-- Every round adds a row to the sums, which are kept as integers meanwhile. -/
def roundedSums : Proc where
  name := "rounded_sums"
  params := [.size "n", .buffer ⟨"A", .f64, [.var "n", .int 2], .dram⟩,
    .buffer ⟨"S", .f64, [.int 2], .dram⟩]
  body := [.alloc ⟨"t", .i32, [.int 2], .dram⟩,
    .loop ⟨"k", .var "n", .seq⟩ [
      .loop ⟨"i", .int 2, .seq⟩ [.store .set "t" [.var "i"] (.read "S" [.var "i"])],
      .loop ⟨"i", .int 2, .seq⟩ [.store .add "t" [.var "i"] (.read "A" [.var "k", .var "i"])],
      .loop ⟨"i", .int 2, .seq⟩ [.store .set "S" [.var "i"] (.read "t" [.var "i"])]]]

/-- The integers are fetched once, before the loop. -/
theorem roundedSums_hoisted :
    let args : Args Halves := ⟨[("n", 2)], [("A", ⟨.f64, [2, 2], #[(1 : Int), (2 : Int), (3 : Int),
      (4 : Int)]⟩), ("S", ⟨.f64, [2], #[(5 : Int), (6 : Int)]⟩)]⟩
    let copy : Stmt := .loop ⟨"i", .int 2, .seq⟩ [.store .set "t" [.var "i"] (.read "S" [.var "i"])]
    let rest : Block := [
      .loop ⟨"i", .int 2, .seq⟩ [.store .add "t" [.var "i"] (.read "A" [.var "k", .var "i"])],
      .loop ⟨"i", .int 2, .seq⟩ [.store .set "S" [.var "i"] (.read "t" [.var "i"])]]
    isHoistable "k" [copy] rest = true ∧ (roundedSums.run {} args).1 = .ok () ∧
      ∃ b, roundedSums.body.replace? [1] ([copy] ++ [.loop ⟨"k", .var "n", .seq⟩ rest]) = some b ∧
        { roundedSums with body := b }.run {} args = (.ok (), (roundedSums.run {} args).2) := by
  intro args copy rest
  have hvalid : roundedSums.problems (some (Catalog.find? {})) = [] := rfl
  have hhoist : isHoistable "k" [copy] rest = true := rfl
  have hrun : (roundedSums.run {} args).1 = .ok () := by cbv
  refine ⟨hhoist, hrun, Proc.run_hoisted hvalid rfl rfl hhoist (fun s hs cn hcn d e hd he => ?_) hrun⟩
  obtain rfl := List.mem_singleton.1 hs
  cases hcn
  cases hd
  cases he
  rintro (x : Int)
  have hcut : x / 2 * 2 / 2 = x / 2 := Int.mul_ediv_cancel _ (by decide)
  exact congrArg (fun y : Int => y * 2) hcut

/-- Adds one half twice to a sum that is kept as an integer between the rounds. -/
def halfSteps : Proc where
  name := "half_steps"
  params := [.buffer ⟨"S", .i32, [.int 1], .dram⟩]
  body := [.alloc ⟨"t", .f64, [.int 1], .dram⟩,
    .loop ⟨"k", .int 2, .seq⟩ [
      .store .set "t" [.int 0] (.read "S" [.int 0]),
      .store .add "t" [.int 0] (.binary .div (.int 1) (.int 2)),
      .store .set "S" [.int 0] (.read "t" [.int 0])]]

/-- With a source of a narrower type hoisting changes results: halves that every round would cut off
add up to a whole. -/
theorem halfSteps_hoisted :
    let sum (halves : Int) : Args Halves := ⟨[], [("S", ⟨.i32, [1], #[halves]⟩)]⟩
    let q : Proc := { halfSteps with body := [.alloc ⟨"t", .f64, [.int 1], .dram⟩,
      .store .set "t" [.int 0] (.read "S" [.int 0]),
      .loop ⟨"k", .int 2, .seq⟩ [
        .store .add "t" [.int 0] (.binary .div (.int 1) (.int 2)),
        .store .set "S" [.int 0] (.read "t" [.int 0])]] }
    halfSteps.problems (some (Catalog.find? {})) = [] ∧
      halfSteps.fissionAfter "t[_] = _" 1 = .ok q ∧
      halfSteps.run {} (sum 0) = (.ok (), sum 0) ∧ q.run {} (sum 0) = (.ok (), sum 2) := by
  intro sum q
  have hpick : halfSteps.pickStmt "t[_] = _" = .ok [1, 0] := by cbv
  refine ⟨rfl, ?_, rfl, rfl⟩
  rw [Proc.fissionAfter, hpick]
  rfl

end LoopNest
