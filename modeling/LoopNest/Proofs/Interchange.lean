import LoopNest.Proofs.Context
import LoopNest.Step.Reorder

/-!
# Interchanging loops keeps results

A loop whose whole body is another loop runs its inner rounds in the order of pairs of numbers. When
the loops change places, two rounds change their order only if both numbers differ. The check asks of
any two accesses in conflict that they pin one of the two variables, so such rounds touch nothing in
common that one of them writes, and all of them can be rearranged (`Stmt.trace_interchange`).
-/

namespace LoopNest

open Stmt Evaluator Access

variable {h : Nat → Nat → List Action} {acts : List Action}

/-! ## What the check promises -/

theorem mem_pairs {β : Type} {l : List β} {a b : β} (ha : a ∈ l) (hb : b ∈ l) :
    (a, b) ∈ pairs l ∨ (b, a) ∈ pairs l := by
  induction l with
  | nil => cases ha
  | cons x l ih =>
    simp only [pairs, List.mem_append, List.mem_map, Prod.mk.injEq]
    obtain rfl | hal := List.mem_cons.1 ha
    · exact .inl (.inl ⟨b, hb, rfl, rfl⟩)
    · obtain rfl | hbl := List.mem_cons.1 hb
      · exact .inr (.inl ⟨a, ha, rfl, rfl⟩)
      · exact (ih hal hbl).imp .inr .inr

theorem Access.conflicts_comm (a b : Access) : a.conflicts b = b.conflicts a := by
  rw [conflicts, conflicts, Bool.or_comm, BEq.comm]

theorem Access.buf_eq_of_conflicts {a b : Access} (h : a.conflicts b = true) : a.buf = b.buf := by
  simp only [conflicts, Bool.and_eq_true, beq_iff_eq] at h
  exact h.1

/-- The bound of the inner loop is the same in all rounds, and accesses in conflict pin one of the
variables. -/
theorem of_checkReorder {o i : Header} {body : Block} (h : checkReorder o i body = .ok ()) :
    o.var ∉ i.bound.vars ∧
      ∀ a ∈ ofBlock [] body, ∀ b ∈ ofBlock [] body, a.conflicts b = true →
        a.buf ∉ body.allocated → ∃ x ∈ [o.var, i.var],
          x ∈ pinned [o.enclosing, i.enclosing] a b ∨
            x ∈ pinned [o.enclosing, i.enclosing] b a := by
  simp only [checkReorder] at h
  split at h
  · cases h
  next hbound =>
    split at h
    · cases h
    next hnone =>
      refine ⟨fun hmem => hbound (List.contains_iff_mem.2 hmem), fun a ha b hb hab hlocal => ?_⟩
      rw [List.find?_eq_none] at hnone
      have hpinned : ∀ {a b : Access}, (a, b) ∈ pairs ((ofBlock [] body).filter
          fun a => !body.allocated.contains a.buf) → a.conflicts b = true →
            ∃ x ∈ [o.var, i.var], x ∈ pinned [o.enclosing, i.enclosing] a b := by
        intro a b hmem hab
        have hnot := hnone (a, b) hmem
        by_cases ho : o.var ∈ pinned [o.enclosing, i.enclosing] a b
        · exact ⟨o.var, by simp, ho⟩
        · exact ⟨i.var, by simp, by simpa [hab, ho] using hnot⟩
      have hlocal' : b.buf ∉ body.allocated := buf_eq_of_conflicts hab ▸ hlocal
      have hkeep : ∀ {a : Access}, a ∈ ofBlock [] body → a.buf ∉ body.allocated →
          a ∈ (ofBlock [] body).filter fun a => !body.allocated.contains a.buf :=
        fun ha hlocal => List.mem_filter.2 ⟨ha, by simpa using hlocal⟩
      obtain hmem | hmem := mem_pairs (hkeep ha hlocal) (hkeep hb hlocal')
      · obtain ⟨x, hx, hpin⟩ := hpinned hmem hab
        exact ⟨x, hx, .inl hpin⟩
      · obtain ⟨x, hx, hpin⟩ := hpinned hmem (conflicts_comm a b ▸ hab)
        exact ⟨x, hx, .inr hpin⟩

/-! ## Rounds of two loops -/

/-- The environment of an inner round. -/
def Env.round (env : Env) (o i : Header) (k l : Nat) : Env :=
  (env.bind o.var (.index (Int64.ofNat k))).bind i.var (.index (Int64.ofNat l))

section rounds

variable {c : Catalog} {seen : List String} {env : Env} {lay : Layout} {o i : Header} {body : Block}

theorem Env.round_swap (hne : i.var ≠ o.var) (k l : Nat) (x : String) :
    (env.round o i k l).lookup x = (env.round i o l k).lookup x := by
  simp only [Env.round, Env.lookup_bind]
  by_cases hi : x = i.var
  · simp [hi, hne]
  · simp [hi]

/-- Rounds that differ in both numbers are apart. -/
theorem Stmt.rounds_apart (htidy : env.Tidy seen lay)
    (hfresh : (Stmt.loop o [.loop i body]).Fresh seen) (hcheck : checkReorder o i body = .ok ())
    {n m : Word} (hn : checked.eval env o.bound = some n)
    (hm : checked.eval env i.bound = some m) {k k' l l' : Nat} (hk : k < n.toInt.toNat)
    (hk' : k' < n.toInt.toNat) (hl : l < m.toInt.toNat) (hl' : l' < m.toInt.toNat) (hkk : k ≠ k')
    (hll : l ≠ l') {a a' : List Action} {e e' : Env}
    (ha : c.traceAll (env.round o i k l) lay body = some (a, e))
    (ha' : c.traceAll (env.round o i k' l') lay body = some (a', e')) : Apart lay a a' := by
  obtain ⟨ho, ⟨hi, hbody⟩, -⟩ := hfresh
  rw [List.mem_cons, not_or] at hi
  have hinner : ∀ {k l : Nat}, k < n.toInt.toNat → l < m.toInt.toNat →
      Env.Inner lay.length [o.enclosing, i.enclosing] env (env.round o i k l) := by
    intro k l hk hl
    obtain ⟨hk0, hkn⟩ := Header.lt_of_constant? hn hk
    obtain ⟨hl0, hlm⟩ := Header.lt_of_constant? hm hl
    exact ((Env.Inner.refl _ env).bind_index o.var hk0 hkn).bind_index i.var hl0 hlm
  refine apart_of_pinned c.calls_closed c.calls_confined htidy.plain (hinner hk hl)
    (hinner hk' hl') (fun x hx => ?_) (fun x hx => ?_) ha ha' fun a ha b hb hab hlocal => ?_
  · have hnew : x ∉ seen := by
      simp only [List.map_cons, List.map_nil, List.mem_cons, List.not_mem_nil, or_false,
        or_self] at hx
      obtain (rfl | rfl) | hx := hx
      · exact ho
      · exact hi.2
      · exact fun hmem => hbody.not_mem_binders (by simp [hmem]) hx
    exact htidy.bound x hnew
  · have hmem : x ∈ i.var :: o.var :: seen := by
      simp only [List.map_cons, List.map_nil, List.mem_cons, List.not_mem_nil, or_false] at hx ⊢
      tauto
    exact ⟨hbody.not_mem_binders hmem, hbody.not_mem_binders hmem⟩
  · obtain ⟨x, hx, hpin⟩ := (of_checkReorder hcheck).2 a ha b hb hab fun hmem =>
      hlocal (List.mem_append_left _ hmem)
    simp only [List.mem_cons, List.not_mem_nil, or_false] at hx
    obtain rfl | rfl := hx
    · refine ⟨o.var, by simp [Header.enclosing], ?_, hpin⟩
      simpa [Env.round, Env.value?_bind, Ne.symm hi.1] using Word.ofNat_ne hk hk' hkk
    · refine ⟨i.var, by simp [Header.enclosing], ?_, hpin⟩
      simpa [Env.round, Env.value?_bind] using Word.ofNat_ne hl hl' hll

/-- Every inner round of two nested loops has a trace. -/
def Stmt.NestTraces (c : Catalog) (env : Env) (lay : Layout) (o i : Header) (body : Block)
    (n m : Nat) (h : Nat → Nat → List Action) : Prop :=
  ∀ k < n, ∀ l < m, ∃ e, traceAll .checked c c.calls (env.round o i k l) lay body = some (h k l, e)

theorem Stmt.NestTraces.closes {n m : Nat} (hh : NestTraces c env lay o i body n m h) :
    ∀ k ∈ List.range n, ∀ l ∈ List.range m, Closes lay (scope lay (h k l)) := by
  intro k hk l hl
  obtain ⟨e, he⟩ := hh k (List.mem_range.1 hk) l (List.mem_range.1 hl)
  exact scope_traceAll_closes c.calls_closed he

/-- Nested loops with an inner bound that does not vary have a trace if and only if all inner rounds
have. The scopes around the rounds of the outer loop do nothing. -/
theorem Stmt.trace_nest {n m : Word} (hn : checked.eval env o.bound = some n)
    (hm : ∀ k, checked.eval (env.turn o k) i.bound = some m) :
    (Stmt.loop o [.loop i body]).trace .checked c c.calls env lay = some (acts, env) ↔
      ∃ h, NestTraces c env lay o i body n.toInt.toNat m.toInt.toNat h ∧
        acts = (List.range n.toInt.toNat).flatMap fun k =>
          scope lay ((List.range m.toInt.toNat).flatMap fun l => scope lay (h k l)) := by
  constructor
  · intro ht
    obtain ⟨n', g, hn', hg, hr⟩ := trace_loop.1 ht
    obtain rfl : n' = n := Option.mem_unique hn' hn
    have hinner : ∀ k < n'.toInt.toNat, ∃ h : Nat → List Action,
        (∀ l < m.toInt.toNat, ∃ e, c.traceAll (env.round o i k l) lay body = some (h l, e)) ∧
        g k = (List.range m.toInt.toNat).flatMap fun l => scope lay (h l) := by
      intro k hk
      obtain ⟨e, he⟩ := hg k hk
      obtain ⟨m', h, hm', hh, hr⟩ := trace_loop.1 (traceAll_singleton.1 he)
      obtain rfl : m' = m := Option.mem_unique hm' (hm k)
      exact ⟨h, hh, (Prod.mk.inj hr).1⟩
    choose! h hh hgh using hinner
    refine ⟨h, hh, (Prod.mk.inj hr).1.trans (List.flatMap_congr fun k hk => ?_)⟩
    rw [hgh k (List.mem_range.1 hk)]
  · rintro ⟨h, hh, rfl⟩
    refine trace_loop.2 ⟨n, _, hn, fun k hk =>
      ⟨env.turn o k, traceAll_singleton.2 ?_⟩, rfl⟩
    exact trace_loop.2 ⟨m, h k, hm k, hh k hk, rfl⟩

theorem Equiv.nest {n m : List Nat} (hclosed : ∀ k ∈ n, ∀ l ∈ m, Closes lay (h k l)) :
    Equiv lay (n.flatMap fun k => LoopNest.scope lay (m.flatMap (h k)))
      (n.flatMap fun k => m.flatMap (h k)) :=
  Equiv.flatMap (fun k hk => (Closes.flatMap (hclosed k hk)).grows.scope)
    fun k hk => Equiv.scope_of_closes (.flatMap (hclosed k hk))

/-- **The loops may change places** wherever the inner bound has a value. -/
theorem Stmt.trace_interchange (htidy : env.Tidy seen lay)
    (hfresh : (Stmt.loop o [.loop i body]).Fresh seen) (hcheck : checkReorder o i body = .ok ())
    (hbound : ∃ m, env.index i.bound = .ok m)
    (ht : (Stmt.loop o [.loop i body]).trace .checked c c.calls env lay = some (acts, env)) :
    ∃ acts', (Stmt.loop i [.loop o body]).trace .checked c c.calls env lay = some (acts', env) ∧
      Equiv lay acts acts' := by
  obtain ⟨n, -, hn, -⟩ := trace_loop.1 ht
  obtain ⟨m, hm⟩ := hbound
  replace hm : checked.eval env i.bound = some m := checked_eval.2 hm
  have hi : i.var ∉ o.var :: seen := hfresh.2.1.1
  rw [List.mem_cons, not_or] at hi
  -- the bounds have the same values inside the other loop
  have hin : ∀ {x : String} {e : Expr} {w : Word} (k : Nat),
      checked.eval env e = some w → x ∉ e.vars →
        checked.eval (env.bind x (.index (Int64.ofNat k))) e = some w := by
    intro x e w k he hx
    rw [← he]
    refine checked.congr fun v hv => ?_
    have hne : v ≠ x := fun h => hx (h ▸ hv)
    rw [Env.value?_bind, if_neg hne]
  have hio : i.var ∉ o.bound.vars := fun hv => by
    have hsome := checked.value?_isSome hn i.var hv
    simp [Env.value?, htidy.bound i.var hi.2] at hsome
  obtain ⟨h, hh, rfl⟩ := (trace_nest hn fun k => hin k hm (of_checkReorder hcheck).1).1 ht
  have hswap : ∀ k < n.toInt.toNat, ∀ l < m.toInt.toNat, ∃ a,
      (∃ e, c.traceAll (env.round i o l k) lay body = some (a, e)) ∧ Equiv lay (h k l) a := by
    intro k hk l hl
    obtain ⟨e, he⟩ := hh k hk l hl
    obtain ⟨a, e', ha, hact, -⟩ := traceAll_seated c.calls_closed c.calls_seated body .whole
      (.refl lay) (.of_lookup fun x => (Env.round_swap hi.1 k l x).symm) he
    exact ⟨a, ⟨e', ha⟩, hact.equiv⟩
  choose! h' hh' heq using hswap
  have hnew : NestTraces c env lay i o body m.toInt.toNat n.toInt.toNat fun l k => h' k l :=
    fun l hl k hk => hh' k hk l hl
  refine ⟨_, (trace_nest hm fun l => hin l hn hio).2 ⟨_, hnew, rfl⟩, ?_⟩
  have hapart : (List.range n.toInt.toNat).Pairwise fun k k' =>
      (List.range m.toInt.toNat).Pairwise fun l l' =>
        Apart lay (scope lay (h k l')) (scope lay (h k' l)) := by
    refine List.pairwise_lt_range.imp_of_mem fun {k k'} hk hk' hkk => ?_
    refine List.pairwise_lt_range.imp_of_mem fun {l l'} hl hl' hll => ?_
    rw [List.mem_range] at hk hk' hl hl'
    obtain ⟨e, he⟩ := hh k hk l' hl'
    obtain ⟨e', he'⟩ := hh k' hk' l hl
    exact (rounds_apart htidy hfresh hcheck hn hm hk hk' hl' hl (Nat.ne_of_lt hkk)
      (Nat.ne_of_gt hll) he he').scope lay lay
  have hrename : Equiv lay
      ((List.range m.toInt.toNat).flatMap fun l =>
        (List.range n.toInt.toNat).flatMap fun k => scope lay (h k l))
      ((List.range m.toInt.toNat).flatMap fun l =>
        (List.range n.toInt.toNat).flatMap fun k => scope lay (h' k l)) :=
    Equiv.flatMap (fun l hl => .flatMap fun k hk => hh.closes k hk l hl) fun l hl =>
      Equiv.flatMap (fun k hk => hh.closes k hk l hl) fun k hk =>
        (heq k (List.mem_range.1 hk) l (List.mem_range.1 hl)).scope
  exact ((Equiv.nest hh.closes).trans (Equiv.interchange hh.closes hapart)).trans
    (hrename.trans (Equiv.nest hnew.closes).symm)

end rounds

/-! ## Kernels -/

/-- **Interchange keeps results.** A loop of a valid kernel and the loop that is its whole body change
places. If the check allows it and the inner bound has a value wherever the outer loop is come to, then
the new kernel runs to its end on all arguments on which the old one does, with the same tensors. It
is the kernel that `reorder` builds. -/
theorem Proc.run_interchanged {α : Type} [Element α] {p : Proc} {c : Catalog} {args : Args α}
    {path : Path} {o i : Header} {body : Block} (hvalid : p.problems (some c.find?) = [])
    (hstmt : p.stmt? path = some (.loop o [.loop i body])) (hcheck : checkReorder o i body = .ok ())
    (hrun : (p.run c args).1 = .ok ())
    (hbound : ∀ env st, p.Reaches c args path env st → ∃ m, env.index i.bound = .ok m) :
    ∃ b, p.body.replace? path [.loop i [.loop o body]] = some b ∧
      { p with body := b }.run c args = (.ok (), (p.run c args).2) ∧
      ∀ outer inner q, p.pickLoop outer = .ok (path, o, [.loop i body]) →
        p.reorder outer inner = .ok q → q = { p with body := b } := by
  obtain ⟨b, hreplace, hrel⟩ := Block.replaced_of_get? [.loop i [.loop o body]] hstmt
  refine ⟨b, hreplace, ?_, fun outer inner q hpick hq => ?_⟩
  · rw [Proc.run_replaced (Proc.freshAll hvalid) rfl hrel ?_ hrun, ← hrun]
    intro seen env st acts hreach htidy hfresh ht
    obtain ⟨acts', ht', heq⟩ :=
      Stmt.trace_interchange htidy hfresh hcheck (hbound env st hreach) ht
    exact ⟨acts', Stmt.traceAll_singleton.2 ht', heq.toIn α⟩
  · simp only [reorder, hpick, except_bind_eq_ok, Except.ok.injEq, exists_eq_left'] at hq
    obtain ⟨sel, -, hq⟩ := hq
    split at hq
    · simp only [hcheck, replaceStmt, hreplace, withBody, except_bind_eq_ok, Except.ok.injEq,
        exists_eq_left', finish] at hq
      split at hq
      · exact (Except.ok.inj hq).symm
      · cases hq
    · cases hq

/-- Sums of the columns of a matrix with `n` rows, row after row. -/
def columnSums : Proc where
  name := "column_sums"
  params := [.size "n", .buffer ⟨"A", .f32, [.var "n", .int 3], .dram⟩,
    .buffer ⟨"S", .f32, [.int 3], .dram⟩]
  body := [.loop ⟨"r", .var "n", .seq⟩ [.loop ⟨"k", .int 3, .seq⟩
    [.store .add "S" [.var "k"] (.read "A" [.var "r", .var "k"])]]]

/-- Column after column. -/
theorem columnSums_interchanged :
    let args : Args Float := ⟨[("n", 2)], [("A", ⟨.f32, [2, 3], #[1, 2, 3, 4, 5, 6]⟩),
      ("S", ⟨.f32, [3], #[0, 0, 0]⟩)]⟩
    let q : Proc := { columnSums with body := [.loop ⟨"k", .int 3, .seq⟩ [.loop ⟨"r", .var "n", .seq⟩
      [.store .add "S" [.var "k"] (.read "A" [.var "r", .var "k"])]]] }
    (columnSums.run {} args).1 = .ok () ∧ columnSums.reorder "r" "k" = .ok q ∧
      q.run {} args = (.ok (), (columnSums.run {} args).2) := by
  intro args q
  have hvalid : columnSums.problems (some (Catalog.find? {})) = [] := rfl
  have hrun : (columnSums.run {} args).1 = .ok () := rfl
  have hstmt : columnSums.stmt? [0] = some (.loop ⟨"r", .var "n", .seq⟩ [.loop ⟨"k", .int 3, .seq⟩
    [.store .add "S" [.var "k"] (.read "A" [.var "r", .var "k"])]]) := rfl
  have hpick : columnSums.pickLoop "r" = .ok ([0], ⟨"r", .var "n", .seq⟩, [.loop ⟨"k", .int 3, .seq⟩
    [.store .add "S" [.var "k"] (.read "A" [.var "r", .var "k"])]]) := by cbv
  have hq : columnSums.reorder "r" "k" = .ok q := by cbv
  obtain ⟨b, -, hrun', hbuilt⟩ :=
    Proc.run_interchanged hvalid hstmt rfl hrun fun _ _ _ => ⟨3, rfl⟩
  exact ⟨hrun, hq, hbuilt "r" "k" q hpick hq ▸ hrun'⟩

end LoopNest
