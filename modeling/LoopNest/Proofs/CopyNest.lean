import LoopNest.Proofs.Matching.Aligned
import LoopNest.Proofs.Trace.Independence
import LoopNest.Step.Fission

/-!
# Nests that copy one buffer to another

The trace of a copy nest is one copy for every iteration of its loops (`CopyNest.Spells.mem_trace`,
`CopyNest.Spells.of_mem_trace`). A nest that undoes another one runs through the same iterations
(`CopyNest.Spells.iterates`), and copies in the opposite direction between the same two places in
each of them (`Evaluator.place_of_sameIndex`).
-/

namespace LoopNest

open Stmt

/-! ## Environments with more bindings -/

/-- What the first environment binds is bound alike in the second one. -/
def Env.ExtendedBy (env env' : Env) : Prop := ∀ x b, env.lookup x = some b → env'.lookup x = some b

namespace Env.ExtendedBy

variable {env env' env'' : Env}

theorem bind_new {x : String} (hx : env.lookup x = none) (b : Binding) :
    env.ExtendedBy (env.bind x b) := by
  intro y b' hy
  have hne : y ≠ x := by
    rintro rfl
    rw [hx] at hy
    cases hy
  rwa [lookup_bind, if_neg hne]

variable (h : env.ExtendedBy env')
include h

theorem trans (h' : env'.ExtendedBy env'') : env.ExtendedBy env'' :=
  fun x b hx => h' x b (h x b hx)

theorem bind (x : String) (b : Binding) :
    Env.ExtendedBy (env.bind x b) (env'.bind x b) := by
  intro y b' hy
  rw [lookup_bind] at hy ⊢
  split at hy
  next hyx => rwa [if_pos hyx]
  next hyx =>
    rw [if_neg hyx]
    exact h y b' hy

theorem value? {x : String} {n : Word} (hx : env.value? x = some n) :
    env'.value? x = some n :=
  value?_eq_some.2 (h x _ (value?_eq_some.1 hx))

theorem view? {x : String} {v : View} (hx : env.view? x = some v) :
    env'.view? x = some v :=
  view?_eq_some.2 (h x _ (view?_eq_some.1 hx))

theorem wide? {e : Expr} {z : Int} (hz : env.wide? e = some z) :
    env'.wide? e = some z := by
  rw [← hz]
  refine (wide?_congr fun v hv => ?_).symm
  obtain ⟨n, hn⟩ := Option.isSome_iff_exists.1 (value?_isSome_of_wide? hz v hv)
  rw [hn, h.value? hn]

end Env.ExtendedBy

/-! ## Index expressions that are the same -/

namespace Evaluator

variable {ev : Evaluator} {env env' : Env} (hext : env.ExtendedBy env')
include hext

/-- Expressions that are the same have one value, also where more is bound. -/
theorem eval_of_sameIndex {e e' : Expr} (h : e'.sameIndex e = true) {n n' : Word}
    (hn : ev.eval env e = some n) (hn' : ev.eval env' e' = some n') : n' = n :=
  Int64.toInt_inj.1 (Env.wide?_of_sameIndex h (ev.to_wide hn') (hext.wide? (ev.to_wide hn)))

theorem eval_of_same {e e' : Expr} (h : e'.same e = true) {n n' : Word}
    (hn : ev.eval env e = some n) (hn' : ev.eval env' e' = some n') : n' = n := by
  have hwide := hext.wide? (ev.to_wide hn)
  rw [← env'.wide?_of_same h, ev.to_wide hn'] at hwide
  exact Int64.toInt_inj.1 (Option.some.inj hwide)

theorem indices_of_sameIndex {idx idx' : List Expr}
    (h : List.Forall₂ (fun e' e => Expr.sameIndex e' e = true) idx' idx) {ns ns' : List Word}
    (hns : ev.indices env idx = some ns) (hns' : ev.indices env' idx' = some ns') : ns' = ns := by
  rw [indices_eq_some] at hns hns'
  induction h generalizing ns ns' with
  | nil =>
    cases hns
    cases hns'
    rfl
  | cons he _ ih =>
    obtain _ | ⟨hn, hns⟩ := hns
    obtain _ | ⟨hn', hns'⟩ := hns'
    rw [eval_of_sameIndex hext he hn hn', ih hns hns']

/-- Indices that are the same lead to the same place, also where more is bound and allocated. -/
theorem place_of_sameIndex {idx idx' : List Expr}
    (h : List.Forall₂ (fun e' e => Expr.sameIndex e' e = true) idx' idx) {lay ext : Layout}
    {buf : String} {p p' : Place} (hp : ev.place env lay buf idx = some p)
    (hp' : ev.place env' (lay ++ ext) buf idx' = some p') : p' = p := by
  obtain ⟨v, ns, hv, hns, hp⟩ := place_eq_some.1 hp
  obtain ⟨v', ns', hv', hns', hp'⟩ := place_eq_some.1 hp'
  obtain rfl : v = v' := Option.mem_unique (hext.view? hv) hv'
  obtain rfl := indices_of_sameIndex hext h hns hns'
  obtain ⟨cs, slot, hcs, hslot, ho, hnumber⟩ := View.place?_eq_some.1 hp
  refine Option.mem_unique hp' (View.place?_eq_some.2 ⟨cs, slot, hcs, ?_, ho, hnumber⟩)
  rwa [List.getElem?_append_left (List.getElem?_eq_some_iff.1 hslot).1]

end Evaluator

/-! ## Iterations of nested loops -/

/-- The second environment is that of one iteration of the loops, which are entered in the first. -/
inductive Env.Iterates (ev : Evaluator) : List (String × Expr) → Env → Env → Prop
  | nil {env : Env} : Iterates ev [] env env
  | cons {v : String} {bound : Expr} {loops : List (String × Expr)} {env inner : Env} {n : Word}
      {k : Nat} :
    ev.eval env bound = some n → k < n.toInt.toNat →
    Iterates ev loops (env.bind v (.index (Int64.ofNat k))) inner →
    Iterates ev ((v, bound) :: loops) env inner

namespace Env.Iterates

variable {ev : Evaluator} {loops : List (String × Expr)} {env inner inner' : Env}

theorem toInner (h : Env.Iterates ev loops env inner) (n : Nat) :
    Env.Inner n (loops.map fun l => (l.1, l.2.constant?)) env inner := by
  induction h with
  | nil => exact Env.Inner.refl n _
  | @cons v bound loops env inner m k hm hk _ ih =>
    obtain ⟨h0, hlt⟩ := Header.lt_of_constant? (h := ⟨v, bound, .seq⟩) hm hk
    exact ((Env.Inner.refl n env).bind_index v h0 hlt).trans ih

/-- An iteration binds the loop variables, to indices, and nothing else. -/
theorem lookup (h : Env.Iterates ev loops env inner) (x : String) :
    (x ∉ loops.map (·.1) ∧ inner.lookup x = env.lookup x) ∨
      (x ∈ loops.map (·.1) ∧ ∃ n, inner.lookup x = some (.index n)) := by
  induction h with
  | nil => exact .inl ⟨by simp, rfl⟩
  | @cons v bound loops env inner m k _ _ _ ih =>
    rw [lookup_bind] at ih
    simp only [List.map_cons, List.mem_cons, not_or]
    obtain ⟨hx, heq⟩ | ⟨hx, hn⟩ := ih
    · by_cases hxv : x = v
      · exact .inr ⟨.inl hxv, _, by rw [heq, if_pos hxv]⟩
      · exact .inl ⟨⟨hxv, hx⟩, by rw [heq, if_neg hxv]⟩
    · exact .inr ⟨.inr hx, hn⟩

/-- Iterations with the same loop variables are the same. -/
theorem lookup_eq (h : Env.Iterates ev loops env inner) (h' : Env.Iterates ev loops env inner')
    (hsame : ∀ x ∈ loops.map (·.1), ∃ k, inner.value? x = some k ∧ inner'.value? x = some k)
    (x : String) : inner.lookup x = inner'.lookup x := by
  obtain ⟨hx, heq⟩ | ⟨hx, -⟩ := h.lookup x
  · obtain ⟨-, heq'⟩ | ⟨hx', -⟩ := h'.lookup x
    · rw [heq, heq']
    · exact absurd hx' hx
  · obtain ⟨k, hk, hk'⟩ := hsame x hx
    rw [value?_eq_some.1 hk, value?_eq_some.1 hk']

end Env.Iterates

/-! ## Copy nests -/

namespace CopyNest

/-- The statement is the nest. -/
inductive Spells : CopyNest → Stmt → Prop
  | store {b src : String} {idx srcIdx : List Expr} :
    src ≠ b → Spells ⟨[], b, idx, src, srcIdx⟩ (.store .set b idx (.read src srcIdx))
  | loop {c : CopyNest} {h : Header} {s : Stmt} :
    Spells c s → Spells { c with loops := (h.var, h.bound) :: c.loops } (.loop h [s])

theorem spells_of_ofStmt? {s : Stmt} {c : CopyNest} (h : ofStmt? s = some c) : c.Spells s := by
  fun_induction ofStmt? s generalizing c with
  | case1 h s ih =>
    simp only [option_bind_eq_some, Option.pure_def, Option.some.injEq] at h
    obtain ⟨c, hc, rfl⟩ := h
    exact .loop (ih hc)
  | case2 b idx srcIdx => cases h
  | case3 b idx src srcIdx hne =>
    cases h
    exact .store hne
  | case4 => cases h

/-- What it takes to undo a nest. -/
theorem of_undoes {r c : CopyNest} (h : r.undoes c = true) :
    List.Forall₂ (fun a b => a.1 = b.1 ∧ Expr.same a.2 b.2 = true) r.loops c.loops ∧
      r.dst = c.src ∧ List.Forall₂ (fun a b => Expr.sameIndex a b = true) r.dstIdx c.srcIdx ∧
      r.src = c.dst ∧ List.Forall₂ (fun a b => Expr.sameIndex a b = true) r.srcIdx c.dstIdx := by
  simp only [undoes, Bool.and_eq_true, beq_iff_eq, pairwise_eq_true] at h
  obtain ⟨⟨⟨⟨hloops, hdst⟩, hdstIdx⟩, hsrc⟩, hsrcIdx⟩ := h
  exact ⟨hloops, hdst, hdstIdx, hsrc, hsrcIdx⟩

/-- A nest that is undone is undone by some statement, and nothing after that writes to its
buffers. -/
theorem of_isUndoneBy {c : CopyNest} {b : Block} (h : c.isUndoneBy b = true) :
    ∃ front s rest r, b = front ++ s :: rest ∧ ofStmt? s = some r ∧ r.undoes c = true ∧
      c.isInjective = true ∧
        ∀ a ∈ Access.ofBlock [] rest, a.write = true → a.buf ≠ c.src ∧ a.buf ≠ c.dst := by
  induction b with
  | nil => cases h
  | cons s rest ih =>
    rw [isUndoneBy] at h
    split at h
    next hundone =>
      obtain ⟨r, hr, hundoes⟩ : ∃ r, ofStmt? s = some r ∧ r.undoes c = true := by
        cases hr : ofStmt? s with
        | none => simp [hr] at hundone
        | some r => exact ⟨r, rfl, by simpa [hr] using hundone⟩
      simp only [Bool.and_eq_true, Bool.not_eq_true', List.any_eq_false, Bool.or_eq_true,
        beq_iff_eq, not_and, not_or] at h
      exact ⟨[], s, rest, r, rfl, hr, hundoes, h.1, h.2⟩
    · obtain ⟨front, t, rest', r, rfl, hr⟩ := ih h
      exact ⟨s :: front, t, rest', r, rfl, hr⟩

namespace Spells

variable {ev : Evaluator} {cat : Catalog} {callee : Callee} {c : CopyNest} {s : Stmt} {env e : Env}
  {lay : Layout} {acts : List Action}

theorem decl?_eq_none (hs : c.Spells s) : s.decl? = none := by
  cases hs <;> rfl

theorem src_ne_dst (hs : c.Spells s) : c.src ≠ c.dst := by
  induction hs with
  | store hne => exact hne
  | loop _ ih => exact ih

/-- The trace of a nest consists of its copies, and of the ends of its rounds. -/
theorem of_mem_trace (hs : c.Spells s) (ht : s.trace ev cat callee env lay = some (acts, e))
    {a : Action} (ha : a ∈ acts) :
    a = .release lay.length ∨ ∃ inner p q, Env.Iterates ev c.loops env inner ∧
      ev.place inner lay c.dst c.dstIdx = some p ∧ ev.load inner lay c.src c.srcIdx = some q ∧
        a = .store .set p (.load q) := by
  induction hs generalizing env e acts with
  | @store b src idx srcIdx hne =>
    obtain ⟨t, p, hterm, hp, ⟨⟩⟩ := trace_store.1 ht
    obtain ⟨q, hq, rfl⟩ := Option.map_eq_some_iff.1 hterm
    exact .inr ⟨env, p, q, .nil, hp, hq, List.mem_singleton.1 ha⟩
  | @loop c h s _ ih =>
    obtain ⟨n, g, hn, hg, ⟨⟩⟩ := trace_loop.1 ht
    obtain ⟨k, hk, ha⟩ := List.mem_flatMap.1 ha
    rw [List.mem_range] at hk
    rw [scope, List.mem_append, List.mem_singleton] at ha
    obtain ha | rfl := ha
    · obtain ⟨e', he'⟩ := hg k hk
      obtain rfl | ⟨inner, p, q, hi, hpq⟩ := ih (traceAll_singleton.1 he') ha
      · exact .inl rfl
      · exact .inr ⟨inner, p, q, .cons hn hk hi, hpq⟩
    · exact .inl rfl

/-- Every iteration makes its copy. -/
theorem mem_trace (hs : c.Spells s) (ht : s.trace ev cat callee env lay = some (acts, e))
    {inner : Env} (hi : Env.Iterates ev c.loops env inner) :
    ∃ p q, ev.place inner lay c.dst c.dstIdx = some p ∧ ev.load inner lay c.src c.srcIdx = some q ∧
      Action.store .set p (.load q) ∈ acts := by
  induction hs generalizing env e acts with
  | @store b src idx srcIdx hne =>
    cases hi
    obtain ⟨t, p, hterm, hp, ⟨⟩⟩ := trace_store.1 ht
    obtain ⟨q, hq, rfl⟩ := Option.map_eq_some_iff.1 hterm
    exact ⟨p, q, hp, hq, .head _⟩
  | @loop c h s _ ih =>
    obtain ⟨n, g, hn, hg, ⟨⟩⟩ := trace_loop.1 ht
    cases hi with
    | @cons _ _ _ _ _ m k hm hk hi =>
      obtain rfl : n = m := Option.mem_unique hn hm
      obtain ⟨e', he'⟩ := hg k hk
      obtain ⟨p, q, hp, hq, hmem⟩ := ih (traceAll_singleton.1 he') hi
      refine ⟨p, q, hp, hq, List.mem_flatMap.2 ⟨k, List.mem_range.2 hk, ?_⟩⟩
      exact List.mem_append_left _ hmem

/-- **Nests with the same loops have the same iterations.** Bounds that are the same are evaluated to
the same numbers, as both nests have traces. -/
theorem iterates {r : CopyNest} {t : Stmt} (hs : c.Spells s) (ht : r.Spells t)
    (hloops : List.Forall₂ (fun a b => a.1 = b.1 ∧ Expr.same a.2 b.2 = true) r.loops c.loops)
    {env' e' : Env} {lay' : Layout} {acts' : List Action} (hext : env.ExtendedBy env')
    (hc : s.trace ev cat callee env lay = some (acts, e))
    (hr : t.trace ev cat callee env' lay' = some (acts', e')) :
    (∀ inner, Env.Iterates ev c.loops env inner →
      ∃ inner', Env.Iterates ev r.loops env' inner' ∧ inner.ExtendedBy inner') ∧
    ∀ inner', Env.Iterates ev r.loops env' inner' →
      ∃ inner, Env.Iterates ev c.loops env inner ∧ inner.ExtendedBy inner' := by
  induction hs generalizing r t env env' e e' acts acts' with
  | store hne =>
    cases ht with
    | store hne' =>
      refine ⟨fun inner hi => ?_, fun inner hi => ?_⟩ <;>
      · cases hi
        exact ⟨_, .nil, hext⟩
    | loop ht => cases hloops
  | @loop c h s _ ih =>
    cases ht with
    | store hne => cases hloops
    | @loop r h' t ht =>
      obtain ⟨⟨hvar, hsame⟩, hloops⟩ := List.forall₂_cons.1 hloops
      have hvar : h'.var = h.var := hvar
      obtain ⟨n, g, hn, hg, -⟩ := trace_loop.1 hc
      obtain ⟨n', g', hn', hg', -⟩ := trace_loop.1 hr
      obtain rfl : n' = n := Evaluator.eval_of_same hext hsame hn hn'
      -- both loops make the same rounds, in environments of which one extends the other
      have hround : ∀ k < n'.toInt.toNat,
          (∀ inner, Env.Iterates ev c.loops (env.turn h k) inner →
            ∃ inner', Env.Iterates ev r.loops (env'.turn h k) inner' ∧ inner.ExtendedBy inner') ∧
          ∀ inner', Env.Iterates ev r.loops (env'.turn h k) inner' →
            ∃ inner, Env.Iterates ev c.loops (env.turn h k) inner ∧ inner.ExtendedBy inner' := by
        intro k hk
        obtain ⟨f, hf⟩ := hg k hk
        obtain ⟨f', hf'⟩ := hg' k hk
        rw [Env.turn, hvar] at hf'
        exact ih ht hloops (hext.bind h.var (.index (Int64.ofNat k)))
          (traceAll_singleton.1 hf) (traceAll_singleton.1 hf')
      refine ⟨fun inner hi => ?_, fun inner hi => ?_⟩
      · cases hi with
        | @cons _ _ _ _ _ m k hm hk hi =>
          obtain rfl : n' = m := Option.mem_unique hn hm
          obtain ⟨inner', hi', hext'⟩ := (hround k hk).1 inner hi
          exact ⟨inner', .cons hn' hk (hvar ▸ hi'), hext'⟩
      · cases hi with
        | @cons _ _ _ _ _ m k hm hk hi =>
          obtain rfl : n' = m := Option.mem_unique hn' hm
          rw [hvar] at hi
          obtain ⟨inner', hi', hext'⟩ := (hround k hk).2 inner hi
          exact ⟨inner', .cons hn hk hi', hext'⟩

end Spells

end CopyNest

end LoopNest
