import LoopNest.Proofs.Simplify.DeadAlloc
import LoopNest.Proofs.Simplify.Index
import LoopNest.Proofs.Simplify.Ranges

/-!
# One round of simplification on statements

A simplified block does what the block does. Variables of inlined loops are bound in the old run and
not in the new one, so the two environments are related by `Env.Zeroed`. Values of index expressions
are unbounded ones: a simplified expression may overflow where the old one does not.
-/

namespace LoopNest

open Stmt

variable {b : Block} {e : Env} {acts : List Action} {ev : Evaluator} {x : String} {hd : Header}

/-! ## Blocks that declare nothing -/

theorem Block.declared_of_not_hasAlloc (h : (!b.hasAlloc) = true) :
    b.flatMap (·.declared) = [] := by
  rw [List.flatMap_eq_nil_iff]
  intro s hs
  simp only [hasAlloc, Bool.not_eq_true', List.any_eq_false, Option.not_isSome_iff_eq_none] at h
  simp [declared, h s hs]

variable {env env' : Env} {lay : Layout} {zeros seen : List String}

theorem Stmt.traceAll_closes {c : Catalog} {callee : Callee} (hc : callee.Closed)
    (hb : b.flatMap (·.declared) = []) (h : traceAll ev c callee env lay b = some (acts, e)) :
    Closes lay acts ∧ e = env := by
  induction b generalizing env lay acts with
  | nil =>
    obtain ⟨⟩ := traceAll_nil.1 h
    exact ⟨.nil lay, rfl⟩
  | cons s rest ih =>
    obtain ⟨a, e₁, a', e₂, hs, hrest, ⟨⟩⟩ := traceAll_cons.1 h
    rw [List.flatMap_cons, List.append_eq_nil_iff] at hb
    have hdecl : s.decl? = none := by simpa [declared] using hb.1
    obtain ⟨hclose, rfl⟩ := (trace_grows hc hs).1 hdecl
    rw [hclose.after] at hrest
    obtain ⟨hclose', rfl⟩ := ih hb.2 hrest
    exact ⟨hclose.append hclose', rfl⟩

/-! ## What becomes of a statement -/

namespace Stmt

/-- The ways in which a round treats a statement. -/
inductive Simplified (rs : Ranges) (zeros : List String) : Stmt → Block → Prop
  | never {hd : Header} {body : Block} {n : Word} :
    (hd.bound.zeroVars zeros).simplifyIndex.int? = some n → n ≤ 0 →
    Simplified rs zeros (.loop hd body) []
  | once {hd : Header} {body : Block} :
    (hd.bound.zeroVars zeros).simplifyIndex.int? = some 1 → body.flatMap (·.declared) = [] →
    Simplified rs zeros (.loop hd body) (simplifyAll rs (hd.var :: zeros) body)
  | idle {hd : Header} {body : Block} {n : Option Word} :
    (hd.bound.zeroVars zeros).simplifyIndex.int? = n →
    dropDead [] (simplifyAll (rs.enter (hd.var, n)) zeros body) = [] →
    Simplified rs zeros (.loop hd body) []
  | loop {hd : Header} {body body' : Block} {n : Option Word} :
    (hd.bound.zeroVars zeros).simplifyIndex.int? = n →
    dropDead [] (simplifyAll (rs.enter (hd.var, n)) zeros body) = body' →
    Simplified rs zeros (.loop hd body)
      [.loop { hd with bound := (hd.bound.zeroVars zeros).simplifyIndex } body']
  | refuted {e : Expr} {body : Block} :
    rs.decide (e.zeroVars zeros).simplifyCondition = some false →
    Simplified rs zeros (.guard e body) []
  | granted {e : Expr} {body : Block} :
    rs.decide (e.zeroVars zeros).simplifyCondition = some true → body.flatMap (·.declared) = [] →
    Simplified rs zeros (.guard e body) (simplifyAll rs zeros body)
  | vacuous {e : Expr} {body : Block} : dropDead [] (simplifyAll rs zeros body) = [] →
    Simplified rs zeros (.guard e body) []
  | guard {e : Expr} {body body' : Block} : dropDead [] (simplifyAll rs zeros body) = body' →
    Simplified rs zeros (.guard e body) [.guard (e.zeroVars zeros).simplifyCondition body']
  | store {u : Update} {b : String} {idx : List Expr} {rhs : Expr} :
    Simplified rs zeros (.store u b idx rhs) [.store u b
      (idx.map fun e => (e.zeroVars zeros).simplifyIndex) (rhs.zeroVars zeros).simplifyData]
  | alloc {d : Decl} : Simplified rs zeros (.alloc d)
      [.alloc { d with shape := d.shape.map fun e => (e.zeroVars zeros).simplifyIndex }]
  | call {t : String} {args : List Window} : Simplified rs zeros (.call t args)
      [.call t (args.map (·.mapExprs fun e => (e.zeroVars zeros).simplifyIndex))]

theorem simplified_simplify (rs : Ranges) (zeros : List String) (s : Stmt) :
    Simplified rs zeros s (s.simplify rs zeros) := by
  cases s with
  | loop hd body =>
    rw [simplify]
    split
    next h =>
      obtain ⟨n, hn, hle⟩ := (Option.any_eq_true _ _).1 h
      exact .never hn (of_decide_eq_true hle)
    · split
      next h =>
        rw [Bool.and_eq_true, beq_iff_eq] at h
        exact .once h.1 (Block.declared_of_not_hasAlloc h.2)
      · split
        next h => exact .idle rfl h
        · exact .loop rfl rfl
  | guard e body =>
    rw [simplify]
    split
    next h => exact .refuted (beq_iff_eq.1 h)
    · split
      next h =>
        rw [Bool.and_eq_true, beq_iff_eq] at h
        exact .granted h.1 (Block.declared_of_not_hasAlloc h.2)
      · split
        next h => exact .vacuous h
        · exact .guard rfl
  | store u b idx rhs => exact .store
  | alloc d => exact .alloc
  | call t args => exact .call

/-- A simplified block declares what the block does: bodies with allocations stay bodies. -/
theorem declared_simplifyAll (rs : Ranges) (zeros : List String) (b : Block) :
    (simplifyAll rs zeros b).flatMap (·.declared) = b.flatMap (·.declared) := by
  induction b using Block.induction generalizing rs zeros with
  | nil => rfl
  | cons s rest ihs ihrest =>
    rw [simplifyAll, List.flatMap_append, List.flatMap_cons, ihrest]
    congr 1
    have h := simplified_simplify rs zeros s
    generalize s.simplify rs zeros = b' at h
    cases h with
    | once _ hdecl | granted _ hdecl => exact (ihs _ rfl _ _).trans hdecl
    | _ => rfl

theorem freshAll_simplifyAll (rs : Ranges) (zeros : List String) {seen : List String}
    (h : FreshAll seen b) : FreshAll seen (simplifyAll rs zeros b) := by
  induction b using Block.induction generalizing rs zeros seen with
  | nil => trivial
  | cons s rest ihs ihrest =>
    obtain ⟨hs, hrest⟩ := h
    have hdecl : (s.simplify rs zeros).flatMap (·.declared) = s.declared := by
      simpa [simplifyAll] using declared_simplifyAll rs zeros [s]
    refine FreshAll.append ?_ hdecl (ihrest _ _ hrest)
    clear hdecl hrest
    have h := simplified_simplify rs zeros s
    generalize s.simplify rs zeros = b' at h
    cases h with
    | never | idle | refuted | vacuous => trivial
    | once => exact (ihs _ rfl _ _ hs.2).mono fun x hx => .tail _ hx
    | granted => exact ihs _ rfl _ _ hs
    | loop _ hbody => exact ⟨⟨hs.1, hbody ▸ freshAll_dropDead (ihs _ rfl _ _ hs.2)⟩, trivial⟩
    | guard hbody => exact ⟨hbody ▸ freshAll_dropDead (ihs _ rfl _ _ hs), trivial⟩
    | alloc => exact ⟨hs, trivial⟩
    | store | call => exact ⟨trivial, trivial⟩

end Stmt

/-! ## Traces -/

section

variable (h : env.Zeroed zeros env') (htidy : env.Tidy seen lay)
include h htidy

theorem Env.Zeroed.tidy : env'.Tidy seen lay := by
  have hview := h.view?_eq
  refine ⟨⟨fun x v hv => ?_, fun x v hv => ?_, fun x y v w hv hw => ?_⟩, fun x hx => ?_⟩
  · exact htidy.plain.lt x v (hview x ▸ hv)
  · exact htidy.plain.whole x v (hview x ▸ hv)
  · exact htidy.plain.inj x y v w (hview x ▸ hv) (hview y ▸ hw)
  · by_cases hz : x ∈ zeros
    · exact h.gone x hz
    · rw [h.same x hz, htidy.bound x hx]

/-- Names that are not bound are none of the variables that are 0. -/
theorem Env.Zeroed.not_mem (hx : x ∉ seen) : x ∉ zeros := fun hz => by
  have hbound := htidy.bound x hx
  rw [h.zero x hz] at hbound
  cases hbound

/-- The variable of a loop that runs once, in its only round. -/
theorem Env.Zeroed.cons (hx : x ∉ seen) : Env.Zeroed (x :: zeros) (env.bind x (.index 0)) env' where
  same y hy := by
    rw [List.mem_cons, not_or] at hy
    rw [lookup_bind, if_neg hy.1, h.same y hy.2]
  zero y hy := by
    rw [lookup_bind]
    by_cases hyx : y = x
    · rw [if_pos hyx]
    · rw [if_neg hyx, h.zero y ((List.mem_cons.1 hy).resolve_left hyx)]
  gone y hy := by
    by_cases hyx : y = x
    · rw [hyx, h.same x (h.not_mem htidy hx), htidy.bound x hx]
    · exact h.gone y ((List.mem_cons.1 hy).resolve_left hyx)

end

section traces

variable {c : Catalog} {callee : Callee} (c callee) in
/-- Wherever the first block has a trace, the second has an equivalent one where the variables in
`zeros` are not bound. The ranges that hold there hold at the end too. -/
def Mimics (rs : Ranges) (zeros seen : List String) (b b' : Block) : Prop :=
  ∀ (env env' e : Env) (lay : Layout) (acts : List Action),
    env.Tidy seen lay → env.Zeroed zeros env' → rs.Holds env' →
    traceAll .wide c callee env lay b = some (acts, e) →
      ∃ acts' e', traceAll .wide c callee env' lay b' = some (acts', e') ∧
        Equiv lay acts acts' ∧ e.Zeroed zeros e' ∧ rs.Holds e'

variable {rs : Ranges} {zeros seen : List String} {env env' : Env} {lay : Layout} {body : Block}

/-- A simplified body without its dead allocations, up to the end of the scope. -/
theorem Mimics.dropDead (hc : callee.Closed) (hm : callee.Seated) {b' : Block}
    (h : Mimics c callee rs zeros seen b b') (hfresh : Stmt.FreshAll seen b')
    (htidy : env.Tidy seen lay) (hzero : env.Zeroed zeros env') (hrs : rs.Holds env')
    (ht : traceAll .wide c callee env lay b = some (acts, e)) :
    ∃ acts' e', traceAll .wide c callee env' lay (LoopNest.dropDead [] b') =
        some (acts', e') ∧ Equiv lay (scope lay acts) (scope lay acts') := by
  obtain ⟨x, e₁, hx, heq, -, -⟩ := h env env' e lay acts htidy hzero hrs ht
  obtain ⟨y, e₂, hy, heq'⟩ := dropDead_equiv hc hm (hzero.tidy htidy) hfresh hx
  exact ⟨y, e₂, hy, heq.scope.trans heq'⟩

/-- A block that is left empty does nothing. -/
theorem equiv_nil_of_scope {acts' : List Action} (h : Equiv lay (scope lay acts) (scope lay acts'))
    (ht : traceAll ev c callee env lay [] = some (acts', e)) : Equiv lay (scope lay acts) [] := by
  obtain ⟨⟩ := traceAll_nil.1 ht
  exact h.trans (.scope_of_closes (.nil lay))

/-- The bound of a loop, if it is a literal once it is simplified. -/
theorem Env.Zeroed.eq_of_int? (h : env.Zeroed zeros env') {e : Expr} {n m : Word}
    (hn : Evaluator.wide.eval env e = some n) (hm : (e.zeroVars zeros).simplifyIndex.int? = some m) :
    n = m := by
  have hval := Evaluator.wide_eval.1 (h.keeps e n hn)
  rw [Expr.wide?_of_int? hm] at hval
  exact Int64.toInt_inj.1 (Option.some.inj hval).symm

/-- The rounds of a loop, each simplified and without its dead allocations. -/
theorem Stmt.rounds_simplified (hc : callee.Closed) (hm : callee.Seated)
    {count : Option Word} (hcount : (hd.bound.zeroVars zeros).simplifyIndex.int? = count)
    (hfresh : (Stmt.loop hd body).Fresh seen)
    (hbody : Mimics c callee (rs.enter (hd.var, count)) zeros (hd.var :: seen) body
      (simplifyAll (rs.enter (hd.var, count)) zeros body)) {n : Word} {g : Nat → List Action}
    (htidy : env.Tidy seen lay) (hzero : env.Zeroed zeros env') (hrs : rs.Holds env')
    (hn : Evaluator.wide.eval env hd.bound = some n)
    (hg : ∀ k < n.toInt.toNat, ∃ e, traceAll .wide c callee
      (env.turn hd k) lay body = some (g k, e)) :
    ∃ g' : Nat → List Action, ∀ k < n.toInt.toNat,
      (∃ e, traceAll .wide c callee (env'.turn hd k) lay
        (dropDead [] (simplifyAll (rs.enter (hd.var, count)) zeros body)) = some (g' k, e)) ∧
      Equiv lay (scope lay (g k)) (scope lay (g' k)) := by
  have hround : ∀ k < n.toInt.toNat, ∃ x, (∃ e, traceAll .wide c callee (env'.turn hd k) lay
        (dropDead [] (simplifyAll (rs.enter (hd.var, count)) zeros body)) = some (x, e)) ∧
      Equiv lay (scope lay (g k)) (scope lay x) := by
    intro k hk
    obtain ⟨e, he⟩ := hg k hk
    have hval := Word.toInt_ofNat hk
    have hrs' : (rs.enter (hd.var, count)).Holds (env'.turn hd k) := by
      refine hrs.bind_index hd.var (by omega) fun m hm => ?_
      obtain rfl := hzero.eq_of_int? hn (hcount.trans hm)
      rw [hval, Word.toInt_sub_one (by omega)]
      omega
    obtain ⟨x, e', hx, heq⟩ := hbody.dropDead hc hm (freshAll_simplifyAll _ _ hfresh.2)
      (htidy.bind_index hd.var _) (hzero.bind (hzero.not_mem htidy hfresh.1) _) hrs' he
    exact ⟨x, ⟨e', hx⟩, heq⟩
  choose! g' hg' using hround
  exact ⟨g', hg'⟩

variable (c callee) in
/-- Simplifying the block is right in every context. -/
def Block.SimplifiesWell (b : Block) : Prop :=
  ∀ (rs : Ranges) (zeros seen : List String), Stmt.FreshAll seen b →
    Mimics c callee rs zeros seen b (Stmt.simplifyAll rs zeros b)

/-- A loop is dropped, inlined, or simplified round by round. -/
theorem Stmt.loop_mimics (hc : callee.Closed) (hm : callee.Seated)
    (hbody : body.SimplifiesWell c callee) (hfresh : (Stmt.loop hd body).Fresh seen) :
    Mimics c callee rs zeros seen [.loop hd body] ((Stmt.loop hd body).simplify rs zeros) := by
  intro env env' e lay acts htidy hzero hrs ht
  have ht := traceAll_singleton.1 ht
  have hcases := simplified_simplify rs zeros (.loop hd body)
  generalize (Stmt.loop hd body).simplify rs zeros = b' at hcases
  cases hcases with
  | never hn hle =>
    obtain ⟨n, g, hbound, hg, ⟨⟩⟩ := trace_loop.1 ht
    obtain rfl := hzero.eq_of_int? hbound hn
    have hzeroRounds : n.toInt.toNat = 0 := by
      have hle := Int64.le_iff_toInt_le.1 hle
      have hz : (0 : Word).toInt = 0 := rfl
      omega
    rw [hzeroRounds]
    exact ⟨[], env', traceAll_nil.2 rfl, .refl _ _, hzero, hrs⟩
  | once hn hdecl =>
    obtain ⟨n, g, hbound, hg, ⟨⟩⟩ := trace_loop.1 ht
    obtain rfl := hzero.eq_of_int? hbound hn
    -- the only round is that of 0, and without allocations it needs no scope
    obtain ⟨e₁, he₁⟩ := hg 0 (by decide)
    obtain ⟨x, e₂, hx, heq, -, -⟩ := hbody rs (hd.var :: zeros) _ hfresh.2 _ env' _ _ _
      (htidy.bind_index hd.var 0) (hzero.cons htidy hfresh.1) hrs he₁
    obtain ⟨-, rfl⟩ := traceAll_closes hc ((declared_simplifyAll _ _ body).trans hdecl) hx
    have hclose := (traceAll_closes hc hdecl he₁).1
    refine ⟨x, e₂, hx, ?_, hzero, hrs⟩
    have honce : (1 : Word).toInt.toNat = 1 := rfl
    rw [honce]
    simpa using (Equiv.scope_of_closes hclose).trans heq
  | idle hcount hempty =>
    obtain ⟨n, g, hbound, hg, ⟨⟩⟩ := trace_loop.1 ht
    obtain ⟨g', hg'⟩ := rounds_simplified hc hm hcount hfresh (hbody _ _ _ hfresh.2)
      htidy hzero hrs hbound hg
    refine ⟨[], env', traceAll_nil.2 rfl, ?_, hzero, hrs⟩
    have hnil : ((List.range n.toInt.toNat).flatMap fun _ => ([] : List Action)) = [] := by simp
    rw [← hnil]
    refine Equiv.flatMap (fun k hk => ?_) fun k hk => ?_
    · obtain ⟨e₁, he₁⟩ := hg k (List.mem_range.1 hk)
      exact scope_traceAll_closes hc he₁
    · obtain ⟨⟨e₁, he₁⟩, heq⟩ := hg' k (List.mem_range.1 hk)
      rw [hempty] at he₁
      exact equiv_nil_of_scope heq he₁
  | loop hcount hbody' =>
    obtain ⟨n, g, hbound, hg, ⟨⟩⟩ := trace_loop.1 ht
    obtain ⟨g', hg'⟩ := rounds_simplified hc hm hcount hfresh (hbody _ _ _ hfresh.2)
      htidy hzero hrs hbound hg
    rw [hbody'] at hg'
    refine ⟨_, env', traceAll_singleton.2 (trace_loop.2 ⟨n, g', hzero.keeps _ n hbound,
      fun k hk => (hg' k hk).1, rfl⟩), ?_, hzero, hrs⟩
    refine Equiv.flatMap (fun k hk => ?_) fun k hk => (hg' k (List.mem_range.1 hk)).2
    obtain ⟨e₁, he₁⟩ := hg k (List.mem_range.1 hk)
    exact scope_traceAll_closes hc he₁

/-- A guard is dropped, replaced by its body, or simplified with its body. -/
theorem Stmt.guard_mimics (hc : callee.Closed) (hm : callee.Seated) {cond : Expr}
    (hbody : body.SimplifiesWell c callee) (hfresh : (Stmt.guard cond body).Fresh seen) :
    Mimics c callee rs zeros seen [.guard cond body]
      ((Stmt.guard cond body).simplify rs zeros) := by
  intro env env' e lay acts htidy hzero hrs ht
  have ht := traceAll_singleton.1 ht
  have hcases := simplified_simplify rs zeros (.guard cond body)
  generalize (Stmt.guard cond body).simplify rs zeros = b' at hcases
  -- what was decided is what the guard evaluates to
  have hdecided : ∀ {b t : Bool}, rs.decide (cond.zeroVars zeros).simplifyCondition = some b →
      Evaluator.wide.condition env cond = some t → t = b :=
    fun hb ht => hrs.decide hb (hzero.condition ht)
  obtain ⟨hcond, ⟨⟩⟩ | ⟨hcond, x, e₁, hx, ⟨⟩⟩ := trace_guard.1 ht
  · cases hcases with
    | refuted | vacuous => exact ⟨[], env', traceAll_nil.2 rfl, .refl _ _, hzero, hrs⟩
    | granted hyes => cases hdecided hyes hcond
    | guard _ =>
      exact ⟨[], env', traceAll_singleton.2 (trace_guard.2
        (.inl ⟨hzero.condition hcond, rfl⟩)), .refl _ _, hzero, hrs⟩
  · have hsimple := hbody rs zeros seen hfresh
    have hdrop := hsimple.dropDead hc hm (freshAll_simplifyAll _ _ hfresh) htidy hzero hrs hx
    cases hcases with
    | refuted hno => cases hdecided hno hcond
    | granted hyes hdecl =>
      obtain ⟨y, e₂, hy, heq, -, -⟩ := hsimple _ _ _ _ _ htidy hzero hrs hx
      obtain ⟨-, rfl⟩ := traceAll_closes hc ((declared_simplifyAll _ _ body).trans hdecl) hy
      have hclose := (traceAll_closes hc hdecl hx).1
      exact ⟨y, e₂, hy, (Equiv.scope_of_closes hclose).trans heq, hzero, hrs⟩
    | vacuous hempty =>
      obtain ⟨y, e₂, hy, heq⟩ := hdrop
      rw [hempty] at hy
      exact ⟨[], env', traceAll_nil.2 rfl, equiv_nil_of_scope heq hy, hzero, hrs⟩
    | guard hbody' =>
      obtain ⟨y, e₂, hy, heq⟩ := hdrop
      rw [hbody'] at hy
      exact ⟨_, env', traceAll_singleton.2 (trace_guard.2
        (.inr ⟨hzero.condition hcond, y, e₂, hy, rfl⟩)), heq, hzero, hrs⟩

/-- Other statements keep what they do; only their index expressions are rewritten. -/
theorem Stmt.leaf_mimics {s : Stmt} (hleaf : s.body? = none) (hfresh : s.Fresh seen) :
    Mimics c callee rs zeros seen [s] (s.simplify rs zeros) := by
  intro env env' e lay acts htidy hzero hrs ht
  have ht := traceAll_singleton.1 ht
  cases s with
  | loop hd body | guard cond body => cases hleaf
  | store u b idx rhs =>
    obtain ⟨t, p, hterm, hplace, ⟨⟩⟩ := trace_store.1 ht
    refine ⟨_, env', traceAll_singleton.2 (trace_store.2 ⟨t, p, hzero.term hterm,
      hzero.keeps.place hzero.view?_eq hplace, rfl⟩), .refl _ _, hzero, hrs⟩
  | alloc d =>
    obtain ⟨shape, size, hshape, hsize, ⟨⟩⟩ := trace_alloc.1 ht
    refine ⟨_, _, traceAll_singleton.2 (trace_alloc.2 ⟨shape, size,
      hzero.keeps.extents hshape, hsize, rfl⟩), .refl _ _, ?_, hrs.bind_buffer _ _⟩
    exact hzero.bind (hzero.not_mem htidy hfresh) _
  | call name args =>
    obtain ⟨t, inner, a, hfind, hlen, hinner, ha, ⟨⟩⟩ := trace_call.1 ht
    have henter := hzero.keeps.enter hzero.view?_eq hinner
    rw [← List.zip_map_right] at henter
    exact ⟨acts, env', traceAll_singleton.2 (trace_call.2
      ⟨t, inner, acts, hfind, by simpa using hlen, henter, ha, rfl⟩), .refl _ _, hzero, hrs⟩

/-- **One round keeps what a block does.** -/
theorem Block.simplifiesWell (hc : callee.Closed) (hm : callee.Seated) (b : Block) :
    b.SimplifiesWell c callee := by
  induction b using Block.induction with
  | nil =>
    intro rs zeros seen _ env env' e lay acts _ hzero hrs ht
    obtain ⟨⟩ := traceAll_nil.1 ht
    exact ⟨[], env', traceAll_nil.2 rfl, .refl _ _, hzero, hrs⟩
  | cons s rest ihs ihrest =>
    intro rs zeros seen hfresh env env' e lay acts htidy hzero hrs ht
    obtain ⟨a, e₁, a', e₂, hs, hrest, ⟨⟩⟩ := traceAll_cons.1 ht
    have hstmt : Mimics c callee rs zeros seen [s] (s.simplify rs zeros) := by
      cases s with
      | loop hd body => exact loop_mimics hc hm (ihs body rfl) hfresh.1
      | guard cond body => exact guard_mimics hc hm (ihs body rfl) hfresh.1
      | _ => exact leaf_mimics rfl hfresh.1
    obtain ⟨x, f, hx, heq, hzero', hrs'⟩ :=
      hstmt _ _ _ _ _ htidy hzero hrs (traceAll_singleton.2 hs)
    obtain ⟨y, f', hy, heq', hzero'', hrs''⟩ := ihrest rs zeros _ hfresh.2 _ _ _ _ _
      (htidy.trace hc hs) hzero' hrs' hrest
    rw [heq.1] at hy
    exact ⟨x ++ y, f', traceAll_append.2 ⟨x, f, y, f', hx, hy, rfl⟩, heq.append heq',
      hzero'', hrs''⟩

end traces

end LoopNest
