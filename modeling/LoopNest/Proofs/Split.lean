import LoopNest.Proofs.AffineValue
import LoopNest.Proofs.Contract.Steps
import LoopNest.Proofs.Matching.Call
import LoopNest.Proofs.Reached
import LoopNest.Proofs.Trace.Substitute

/-!
# Splitting keeps results

The rounds of the two new loops are the rounds of the old one, in the same order, and perhaps more
that the guard turns off: `factor * outer + inner` counts from 0 to the old bound and on
(`Stmt.exec_split_ends`). So a kernel with a split loop leaves what the kernel leaves, unless the new
bound or the new index is no word (`Proc.run_split`).
-/

namespace LoopNest

open Exec Stmt Block Evaluator

variable {k : Word} {inside : Block} {r : Nat → Nat → List Action} {lay : Layout}
  {acts : List Action}

/-! ## The number of rounds -/

/-- Rounding towards minus infinity stays within words. -/
theorem Word.exists_ediv (m : Word) {f : Word} (hf : 1 ≤ f.toInt) :
    ∃ q : Word, q.toInt = m.toInt / f.toInt := by
  have hlow : m.toInt / f.toInt * f.toInt ≤ m.toInt := Int.ediv_mul_le _ (by omega)
  have hhigh : m.toInt < (m.toInt / f.toInt + 1) * f.toInt :=
    Int.lt_ediv_add_one_mul_self _ (by omega)
  have hmem := Word.toInt_mem m
  generalize m.toInt / f.toInt = q at hlow hhigh ⊢
  refine ⟨Int64.ofInt q, Int64.toInt_ofInt_of_le ?_ ?_⟩
  · -- below 0 the quotient is at least the dividend
    by_contra hlt
    nlinarith
  · by_contra hle
    nlinarith

theorem le_mul_ediv_of_pos (n : Int) {f : Int} (hf : 1 ≤ f) : n ≤ f * ((n + f - 1) / f) := by
  have hhigh : n + f - 1 < ((n + f - 1) / f + 1) * f := Int.lt_ediv_add_one_mul_self _ (by omega)
  rw [Int.mul_comm]
  linarith

/-- A count of rounds is a product also where there are none. -/
theorem toNat_mul_of_nonneg {f : Int} (hf : 0 ≤ f) (m : Int) : (f * m).toNat = f.toNat * m.toNat := by
  obtain hneg | hnonneg : m < 0 ∨ 0 ≤ m := by omega
  · rw [Int.toNat_of_nonpos (Int.mul_nonpos_of_nonneg_of_nonpos hf hneg.le),
      Int.toNat_of_nonpos hneg.le, Nat.mul_zero]
  · exact Int.toNat_mul hf hnonneg

/-- The outer loop has rounds for all that the old one had. -/
theorem Proc.index_roundedUp {env : Env} {bound e : Expr} {factor n : Word}
    (hfactor : 1 ≤ factor.toInt) (h : roundedUp bound factor = .ok e)
    (hn : env.index bound = .ok n) :
    env.index e = .error .overflow ∨
      ∃ m, env.index e = .ok m ∧ n.toInt ≤ factor.toInt * m.toInt := by
  unfold roundedUp at h
  split at h
  next n' hlit =>
    obtain rfl : n' = n := by
      cases bound <;> simp_all [Expr.int?, Env.index]
    split at h
    · cases h
    next sum hsum =>
      obtain ⟨t, ht, hsum⟩ := Option.bind_eq_some_iff.1 hsum
      obtain ⟨q, hq⟩ := Word.exists_ediv sum hfactor
      have hdiv : Word.div? sum factor = some q := Word.div?_eq_some.2 ⟨by omega, hq⟩
      rw [hdiv] at h
      cases h
      refine .inr ⟨q, rfl, ?_⟩
      rw [hq, Word.sub?_eq_some.1 hsum, Word.add?_eq_some.1 ht]
      exact le_mul_ediv_of_pos n'.toInt hfactor
  · cases h
    have hpred : env.index (.int (factor - 1)) = .ok (factor - 1) := rfl
    have hlit : env.index (.int factor) = .ok factor := rfl
    have hplus : Op.add.onInts? n.toInt (factor - 1).toInt = some (n.toInt + (factor - 1).toInt) :=
      rfl
    obtain ⟨sum, hsum, hadd⟩ | hover := Env.index_of_onInts? hn hpred hplus
    · obtain ⟨q, hq⟩ := Word.exists_ediv sum hfactor
      have hdiv : Op.div.onInts? sum.toInt factor.toInt = some (sum.toInt / factor.toInt) :=
        Op.quotient?_eq_some.2 ⟨by omega, rfl, q, hq⟩
      obtain ⟨m, hm, hindex⟩ | hover := Env.index_of_onInts? hadd hlit hdiv
      · refine .inr ⟨m, hindex, ?_⟩
        rw [hm, hsum, Word.toInt_sub_one hfactor, ← Int.add_sub_assoc]
        exact le_mul_ediv_of_pos n.toInt hfactor
      · exact .inl hover
    · refine .inl ?_
      rw [Expr.div, Env.index, Expr.add, hover]
      rfl

/-- The quotient of a multiple. -/
def Word.exactQuotient? (c k : Word) : Option Word :=
  (Word.mod? c k).bind fun r => if r = 0 then Word.div? c k else none

theorem Word.eq_mul_of_exactQuotient? {c d : Word} (h : Word.exactQuotient? c k = some d) :
    c.toInt = k.toInt * d.toInt := by
  obtain ⟨r, hr, hd⟩ := Option.bind_eq_some_iff.1 h
  split at hd
  next hzero =>
    have hmod : r.toInt = c.toInt % k.toInt := (Word.mod?_eq_some.1 hr).2
    have hdivides : c.toInt % k.toInt = 0 := by rw [← hmod, hzero, Int64.toInt_zero]
    rw [(Word.div?_eq_some.1 hd).2, Int.mul_ediv_cancel_of_emod_eq_zero hdivides]
  · cases hd

/-- Dividing a form divides its value. -/
theorem Affine.quotient?_eq_some {a q : Affine} (h : a.quotient? k = some q) :
    q.terms.map (·.1) = a.terms.map (·.1) ∧ ∀ σ, a.value σ = k.toInt * q.value σ := by
  have hquotient : a.quotient? k = do
      let terms ← a.terms.mapM fun t => do return (t.1, ← Word.exactQuotient? t.2 k)
      return ⟨terms, ← Word.exactQuotient? a.constant k⟩ := rfl
  simp only [hquotient, option_bind_eq_some, Option.pure_def, Option.some.injEq] at h
  obtain ⟨terms, hterms, c, hc, rfl⟩ := h
  -- the terms are those of the quotient, scaled
  have hscaled : Scaled k terms a.terms := by
    refine List.Forall₂.flip ((mapM_eq_some.1 hterms).imp fun t t' ht => ?_)
    obtain ⟨d, hd, ⟨⟩⟩ := Option.bind_eq_some_iff.1 ht
    exact ⟨rfl, (Word.eq_mul_of_exactQuotient? hd).trans (Int.mul_comm _ _)⟩
  refine ⟨hscaled.keys.symm, fun σ => ?_⟩
  rw [value, value, hscaled.sumOf, Word.eq_mul_of_exactQuotient? hc]
  ring

theorem Affine.index_quotient {env : Env} {e : Expr} {a q : Affine} {factor n : Word}
    (ha : ofExpr? e = some a) (hq : a.quotient? factor = some q) (hn : env.index e = .ok n) :
    env.index q.toExpr = .error .overflow ∨
      ∃ m, env.index q.toExpr = .ok m ∧ n.toInt = factor.toInt * m.toInt := by
  obtain ⟨hvars, hvalue⟩ := quotient?_eq_some hq
  have hwide := Env.wide?_of_index hn
  have hsome : ∀ v ∈ q.vars, (env.value? v).isSome := by
    intro v hv
    have hterm : v ∈ q.terms.map (·.1) := (List.Sublist.map _ List.filter_sublist).subset hv
    rw [hvars] at hterm
    exact Env.value?_isSome_of_wide? hwide v ((ofExpr?_nodup ha).2 v hterm)
  obtain ⟨m, hm, hindex⟩ | hover := Env.index_of_wide? (wide?_toExpr hsome)
  · refine .inr ⟨m, hindex, ?_⟩
    rw [hm, ← hvalue, ofExpr?_value ha hwide]
  · exact .inl hover

/-! ## The new index -/

section index

variable {env : Env} {outer inner : String} {factor o i : Word}

/-- The new index counts on, or is no word. -/
theorem Env.index_splitIndex (factor : Word) (ho : env.value? outer = some o)
    (hi : env.value? inner = some i) :
    (∃ k : Word, k.toInt = factor.toInt * o.toInt + i.toInt ∧
        env.index (Proc.splitIndex factor outer inner) = .ok k) ∨
      env.index (Proc.splitIndex factor outer inner) = .error .overflow := by
  refine Env.index_of_wide? ?_
  refine Env.wide?_binary_eq_some.2 ⟨_, _, Env.wide?_binary_eq_some.2 ⟨_, _, rfl, ?_, rfl⟩, ?_, rfl⟩
  · rw [Env.wide?, ho]
    rfl
  · rw [Env.wide?, hi]
    rfl

/-- Where the result is a word the product before it is one. -/
theorem Env.index_splitIndex_eq_ok (ho : env.value? outer = some o) (hi : env.value? inner = some i)
    (hfactor : 1 ≤ factor.toInt) (ho0 : 0 ≤ o.toInt) (hi0 : 0 ≤ i.toInt)
    (hk : k.toInt = factor.toInt * o.toInt + i.toInt) :
    env.index (Proc.splitIndex factor outer inner) = .ok k := by
  have hnonneg : 0 ≤ factor.toInt * o.toInt := Int.mul_nonneg (by omega) ho0
  have hmem := Word.toInt_mem k
  obtain ⟨x, hx⟩ : ∃ x : Word, x.toInt = factor.toInt * o.toInt :=
    ⟨Int64.ofInt (factor.toInt * o.toInt), Int64.toInt_ofInt_of_le (by omega) (by omega)⟩
  have hmul : Word.mul? factor o = some x := Word.mul?_eq_some.2 hx
  have hadd : Word.add? x i = some k := Word.add?_eq_some.2 (by omega)
  have hprod : env.index (.mul (.int factor) (.var outer)) = .ok x :=
    except_bind_eq_ok.2 ⟨factor, rfl, except_bind_eq_ok.2
      ⟨o, Env.index_var_eq_ok.2 ho, noOverflow_eq_ok.2 hmul⟩⟩
  exact except_bind_eq_ok.2 ⟨x, hprod, except_bind_eq_ok.2
    ⟨i, Env.index_var_eq_ok.2 hi, noOverflow_eq_ok.2 hadd⟩⟩

end index

/-! ## Two loops for one -/

/-- Counting in two digits is counting. -/
theorem flatMap_range_mul {β : Type} (f : Nat → List β) (n m : Nat) :
    ((List.range m).flatMap fun o => (List.range n).flatMap fun i => f (n * o + i)) =
      (List.range (n * m)).flatMap f := by
  induction m with
  | zero => simp
  | succ m ih =>
    rw [List.range_succ, List.flatMap_append, ih, Nat.mul_succ, List.range_add, List.flatMap_append,
      List.flatMap_map]
    simp

/-- Rounds beyond the bound that do nothing may be left out. -/
theorem flatMap_range_guarded {β : Type} (f : Nat → List β) {n m : Nat} (h : n ≤ m) :
    ((List.range m).flatMap fun k => if k < n then f k else []) = (List.range n).flatMap f := by
  obtain ⟨d, rfl⟩ := Nat.exists_eq_add_of_le h
  have hfirst : ((List.range n).flatMap fun k => if k < n then f k else []) =
      (List.range n).flatMap f :=
    List.flatMap_congr fun k hk => if_pos (List.mem_range.1 hk)
  rw [List.range_add, List.flatMap_append, hfirst, List.flatMap_map]
  simp

section nest

variable {α : Type} [Element α] {c : Catalog} {callee : Callee} {exec : Env → Block → Exec α Unit}
  {P : Env → Stmt → Prop}

/-- Two nested loops end if the rounds of the inner one do. -/
theorem Stmt.exec_nest_ends {ho hi : Header} {env : Env} {st : Store α}
    {m factor : Word} (hm : env.index ho.bound = .ok m)
    (hfactor : hi.bound = .int factor)
    (hr : ∀ o i, Closes st.layout (scope st.layout (r o i)))
    (hround : ∀ o < m.toInt.toNat, ∀ i < factor.toInt.toNat, ∀ st' : Store α,
      st'.layout = st.layout → ∀ env', env' = (env.turn ho o).bind hi.var (.index (Int64.ofNat i)) →
        Ends (Meets c exec P env' st' inside) (execAll c exec env' inside) st' ()
          (perform (r o i) st')) :
    Ends (Meets c exec P env st [.loop ho [.loop hi inside]])
      ((Stmt.loop ho [.loop hi inside]).exec c exec env) st env
      (perform ((List.range m.toInt.toNat).flatMap fun o => scope st.layout
        ((List.range factor.toInt.toNat).flatMap fun i => scope st.layout (r o i))) st) := by
  have hinner : ∀ o, Closes st.layout
      ((List.range factor.toInt.toNat).flatMap fun i => scope st.layout (r o i)) :=
    fun o => .flatMap fun i _ => hr o i
  refine exec_loop_ends hm (fun o _ => (hinner o).grows.scope) fun o ho' st' hlay _ => ?_
  have hbound : Env.index (env.turn ho o) hi.bound = .ok factor := by
    rw [hfactor]
    rfl
  rw [← hlay] at hr ⊢
  refine Ends.like ((exec_loop_ends hbound (fun i _ => hr o i) fun i hi' st'' hlay' _ => ?_).bind
    fun _ => .inl rfl)
  exact (hround o ho' i hi' st'' (hlay'.trans hlay) _ rfl).like

/-- A nest of rounds that are those of a loop, in the same order. -/
theorem equivIn_nest {n m factor : Nat} {g : Nat → List Action} (hm : n ≤ factor * m)
    (hg : ∀ k < n, Closes lay (scope lay (g k)))
    (hr : ∀ o i, Closes lay (scope lay (r o i)))
    (hround : ∀ o < m, ∀ i < factor, EquivIn α lay
      (if factor * o + i < n then scope lay (g (factor * o + i)) else []) (scope lay (r o i))) :
    EquivIn α lay ((List.range n).flatMap fun k => scope lay (g k))
      ((List.range m).flatMap fun o =>
        scope lay ((List.range factor).flatMap fun i => scope lay (r o i))) := by
  have hclosed : ∀ k, Closes lay (if k < n then scope lay (g k) else []) := by
    intro k
    split
    next hk => exact hg k hk
    · exact .nil lay
  rw [← flatMap_range_guarded _ hm, ← flatMap_range_mul]
  refine EquivIn.flatMap (fun o _ => .flatMap fun i _ => hclosed _) fun o ho => ?_
  refine EquivIn.trans (EquivIn.flatMap (fun i _ => hclosed _) fun i hi =>
    hround o (List.mem_range.1 ho) i (List.mem_range.1 hi)) ?_
  exact ((Equiv.scope_of_closes (.flatMap fun i _ => hr o i)).toIn α).symm

/-- **Two loops for one.** The round `i` of the round `o` does what the round `factor * o + i` of the
loop does, and nothing where the loop has no such round. -/
theorem Stmt.exec_nest_ends_as_loop {ho hi : Header} {env : Env} {st : Store α}
    {m factor : Word} {n : Nat} {g g' : Nat → List Action} (hm : env.index ho.bound = .ok m)
    (hfactor : hi.bound = .int factor) (hn : n ≤ factor.toInt.toNat * m.toInt.toNat)
    (hg : ∀ k < n, Grows st.layout (g k)) (hg' : ∀ k < n, Grows st.layout (g' k))
    (hsame : ∀ k < n, EquivIn α st.layout (scope st.layout (g k)) (scope st.layout (g' k)))
    (hround : ∀ o < m.toInt.toNat, ∀ i < factor.toInt.toNat, ∀ st' : Store α,
      st'.layout = st.layout → ∀ env', env' = (env.turn ho o).bind hi.var (.index (Int64.ofNat i)) →
        Ends (Meets c exec P env' st' inside) (execAll c exec env' inside) st' ()
          (perform (if factor.toInt.toNat * o + i < n then g' (factor.toInt.toNat * o + i) else [])
            st')) :
    Ends (Meets c exec P env st [.loop ho [.loop hi inside]])
      ((Stmt.loop ho [.loop hi inside]).exec c exec env) st env
      (perform ((List.range n).flatMap fun k => scope st.layout (g k)) st) := by
  have hr : ∀ o i, Closes st.layout (scope st.layout
      (if factor.toInt.toNat * o + i < n then g' (factor.toInt.toNat * o + i) else [])) := by
    intro o i
    refine Grows.scope ?_
    split
    next hk => exact hg' _ hk
    · exact (Closes.nil _).grows
  have hequiv := equivIn_nest (α := α) hn (fun k hk => (hg k hk).scope) hr fun o _ i _ => by
    split
    next hk => exact hsame _ hk
    · exact ((Equiv.scope_of_closes (.nil st.layout)).toIn α).symm
  rw [hequiv.2 st rfl]
  exact exec_nest_ends hm hfactor hr hround

/-- As data, the parts of an index below `n` are put together without loss. -/
def ExactParts (α : Type) [Element α] (factor n : Word) : Prop :=
  ∀ o i k : Word, 0 ≤ o.toInt → 0 ≤ i.toInt → i.toInt < factor.toInt →
    k.toInt = factor.toInt * o.toInt + i.toInt → k.toInt < n.toInt →
      Element.add (Element.mul (Element.ofWord factor) (Element.ofWord o)) (Element.ofWord i) =
        (Element.ofWord k : α)

/-- The names and numbers with which a loop is split in an environment. -/
structure Env.Splits (α : Type) [Element α] (env : Env) (h : Header) (body : Block)
    (factor n : Word) (outer inner : String) : Prop where
  positive : 1 ≤ factor.toInt
  distinct : outer ≠ inner
  freshVar : env.lookup h.var = none
  freshOuter : env.lookup outer = none
  freshInner : env.lookup inner = none
  binders : ∀ x, x = h.var ∨ x ∈ body.binders → x ≠ outer ∧ x ≠ inner
  free : h.var ∉ body.binders
  bound : env.index h.bound = .ok n
  exact : ExactParts α factor n

namespace Env.Splits

variable {env : Env} {h : Header} {body : Block} {factor n : Word} {outer inner : String}

/-- The new index stands for the old one. -/
theorem substitutes (hs : env.Splits α h body factor n outer inner) {o i : Word} (ho : 0 ≤ o.toInt)
    (hi : 0 ≤ i.toInt) (hlt : i.toInt < factor.toInt)
    (hk : k.toInt = factor.toInt * o.toInt + i.toInt) (hkn : k.toInt < n.toInt) :
    Env.Substituted (.equivIn α) h.var (Proc.splitIndex factor outer inner)
      (env.bind h.var (.index k)) ((env.bind outer (.index o)).bind inner (.index i)) := by
  have houter : Env.value? ((env.bind outer (.index o)).bind inner (.index i)) outer = some o := by
    rw [value?_bind, if_neg hs.distinct, value?_bind, if_pos rfl]
  have hinner : Env.value? ((env.bind outer (.index o)).bind inner (.index i)) inner = some i := by
    rw [value?_bind, if_pos rfl]
  have hinner' : (env.bind outer (.index o)).lookup inner = none := by
    rw [lookup_bind, if_neg hs.distinct.symm, hs.freshInner]
  refine .intro (fun {m} hm => ?_) (fun {x m} hx hm => ?_) fun {x u} hu => ⟨u, ?_, rfl⟩
  · obtain rfl : k = m := by simpa [value?_bind] using hm
    refine ⟨index_splitIndex_eq_ok houter hinner hs.positive ho hi hk, fun lay lay' => ?_⟩
    refine ⟨.binary .add (.binary .mul (.word factor) (.word o)) (.word i), ?_, fun st => ?_⟩
    · simp [Proc.splitIndex, Expr.add, Expr.mul, term, houter, hinner, Op.isArithmetic,
        Op.precedence]
    · exact hs.exact o i k ho hi hlt hk hkn
  · rw [value?_bind, if_neg hx] at hm
    have hbound := value?_eq_some.1 hm
    rw [value?_eq_some, lookup_bind_new hinner', lookup_bind_new hs.freshOuter, hbound]
    · rw [hbound]
      rfl
    · rw [lookup_bind_new hs.freshOuter, hbound] <;> simp [hbound]
  · -- none of the three names stands for a buffer
    rw [view?_bind_new hs.freshVar] at hu
    rw [view?_bind_new hinner', view?_bind_new hs.freshOuter, hu]

/-- A round of the inner loop does what the old loop does in the round that it stands for. -/
theorem round (hs : env.Splits α h body factor n outer inner) (hc : callee.Closed) {o i : Nat}
    {e : Env} (ho : (Int64.ofNat o).toInt = o)
    (hi : i < factor.toInt.toNat) (hk : factor.toInt.toNat * o + i < n.toInt.toNat)
    (ht : traceAll .checked c callee
      (env.bind h.var (.index (Int64.ofNat (factor.toInt.toNat * o + i)))) lay body =
        some (acts, e)) :
    ∃ acts' e', traceAll .checked c callee
        ((env.bind outer (.index (Int64.ofNat o))).bind inner (.index (Int64.ofNat i))) lay
        (body.substVar h.var (Proc.splitIndex factor outer inner)) = some (acts', e') ∧
      EquivIn α lay acts acts' := by
  have hvars : (Proc.splitIndex factor outer inner).vars = [outer, inner] := by
    simp [Proc.splitIndex, Expr.add, Expr.mul]
  have hnames : ∀ x ∈ body.binders, x ≠ h.var ∧ x ∉ (Proc.splitIndex factor outer inner).vars := by
    intro x hx
    refine ⟨fun hxv => hs.free (hxv ▸ hx), ?_⟩
    simpa [hvars] using hs.binders x (.inr hx)
  have hi' := Word.toInt_ofNat hi
  have hk' := Word.toInt_ofNat hk
  have hpos := hs.positive
  have hnumber : (Int64.ofNat (factor.toInt.toNat * o + i)).toInt =
      factor.toInt * (Int64.ofNat o).toInt + (Int64.ofNat i).toInt := by
    rw [hk', ho, hi']
    push_cast
    rw [Int.toNat_of_nonneg (by omega)]
  have hsubst := hs.substitutes (by omega) (by omega) (by omega) hnumber (by omega)
  obtain ⟨acts', e', ht', heq, -⟩ := traceAll_substVar hc (Simulation.keeps_equivIn α _)
    Simulation.same_whole hnames rfl hsubst ht
  exact ⟨acts', e', ht', heq⟩

end Env.Splits

/-- What may overflow in the nest for a split loop: the bound of the outer loop, or the index that the
guard looks at. -/
def Stmt.SplitOverflows (factor : Word) (outer inner : String) (env : Env) (s : Stmt) : Prop :=
  (∃ h body, s = .loop h body ∧ h.var = outer ∧ env.index h.bound = .error .overflow) ∨
    ∃ bound body, s = .guard (.binary .lt (Proc.splitIndex factor outer inner) bound) body ∧
      env.index (Proc.splitIndex factor outer inner) = .error .overflow

section rounds

variable {env : Env} {h : Header} {body : Block} {factor n : Word} {outer inner : String}
  {st : Store α} {g : Nat → List Action}

/-- A guarded round does what the old loop does in the round that it stands for, and nothing if there
is none; or its index is no word. -/
theorem Stmt.exec_guarded_ends (hc : callee.Closed) (hruns : callee.Runs exec)
    (hs : env.Splits α h body factor n outer inner) {o i : Nat} (ho : (Int64.ofNat o).toInt = o)
    (hi : i < factor.toInt.toNat)
    (hg : factor.toInt.toNat * o + i < n.toInt.toNat → ∃ e, traceAll .checked c callee
      (env.bind h.var (.index (Int64.ofNat (factor.toInt.toNat * o + i)))) st.layout body =
        some (g (factor.toInt.toNat * o + i), e)) {env' : Env}
    (henv' : env' = (env.bind outer (.index (Int64.ofNat o))).bind inner (.index (Int64.ofNat i))) :
    let guarded : Block := [.guard (.binary .lt (Proc.splitIndex factor outer inner) h.bound)
      (body.substVar h.var (Proc.splitIndex factor outer inner))]
    Ends (Meets c exec (SplitOverflows factor outer inner) env' st guarded)
      (execAll c exec env' guarded) st ()
      (perform (if factor.toInt.toNat * o + i < n.toInt.toNat then
        scope st.layout (g (factor.toInt.toNat * o + i)) else []) st) := by
  intro guarded
  have hpos := hs.positive
  have hi' := Word.toInt_ofNat hi
  have houter : env'.value? outer = some (Int64.ofNat o) := by
    rw [henv', Env.value?_bind, if_neg hs.distinct, Env.value?_bind, if_pos rfl]
  have hinner : env'.value? inner = some (Int64.ofNat i) := by
    rw [henv', Env.value?_bind, if_pos rfl]
  -- the new names do not occur in the bound
  have hbound : env'.index h.bound = .ok n := by
    refine Env.index_congr (fun x hx => ?_) hs.bound
    have hsome := Env.value?_isSome_of_wide? (Env.wide?_of_index hs.bound) x hx
    have hneOuter : x ≠ outer := by
      rintro rfl
      simp [Env.value?, hs.freshOuter] at hsome
    have hneInner : x ≠ inner := by
      rintro rfl
      simp [Env.value?, hs.freshInner] at hsome
    rw [henv', Env.value?_bind, if_neg hneInner, Env.value?_bind, if_neg hneOuter]
  obtain ⟨k, hk, hindex⟩ | hover := Env.index_splitIndex factor houter hinner
  · have hcond : checked.condition env'
        (.binary .lt (Proc.splitIndex factor outer inner) h.bound) = some (decide (k < n)) := by
      simp [condition, checked_eval.2 hindex, checked_eval.2 hbound, Op.compare?]
    have hnumber : k.toInt = ((factor.toInt.toNat * o + i : Nat) : Int) := by
      rw [hk, ho, hi']
      push_cast
      rw [Int.toNat_of_nonneg (by omega)]
    have hlt : k < n ↔ factor.toInt.toNat * o + i < n.toInt.toNat := by
      rw [Int64.lt_iff_toInt_lt]
      omega
    left
    split
    next hin =>
      obtain ⟨e, he⟩ := hg hin
      obtain ⟨acts, e', hacts, heq⟩ := hs.round hc ho hi hin he
      rw [← henv'] at hacts
      rw [decide_eq_true (hlt.2 hin)] at hcond
      rw [heq.scope.2 st rfl]
      exact execAll_of_traceAll hc hruns (traceAll_singleton.2
        (trace_guard.2 (.inr ⟨hcond, acts, e', hacts, rfl⟩)))
    next hout =>
      rw [decide_eq_false (mt hlt.1 hout)] at hcond
      exact execAll_of_traceAll hc hruns (traceAll_singleton.2 (trace_guard.2 (.inl ⟨hcond, rfl⟩)))
  · right
    have hcond : env'.condition (.binary .lt (Proc.splitIndex factor outer inner) h.bound) =
        .error .overflow := by
      rw [Env.condition, hover]
      · rfl
      · simp
    refine ⟨⟨st, run_bind_error (run_bind_error ?_)⟩, .here (.inr ⟨_, _, rfl, hover⟩)⟩
    rw [hcond]
    rfl

/-- A loop whose bound overflows ends the run. -/
theorem Stmt.exec_loop_overflows {hd : Header} {b : Block} {e : Env} {st' : Store α}
    (hover : env.index hd.bound = .error .overflow) (hP : P env (.loop hd b)) :
    Ends (Meets c exec P env st [.loop hd b]) ((Stmt.loop hd b).exec c exec env) st e st' := by
  refine .inr ⟨⟨st, run_bind_error ?_⟩, .here hP⟩
  rw [hover]
  rfl

/-- **A split loop does what the loop does**, or it overflows. -/
theorem Stmt.exec_split_ends (hc : callee.Closed) (hruns : callee.Runs exec)
    (hs : env.Splits α h body factor n outer inner) {mode : Mode} {bound : Expr}
    (hnest : (∃ a, (Affine.ofExpr? h.bound).bind (·.quotient? factor) = some a ∧
        bound = a.toExpr ∧ inside = body.substVar h.var (Proc.splitIndex factor outer inner)) ∨
      (Proc.roundedUp h.bound factor = .ok bound ∧
        inside = [.guard (.binary .lt (Proc.splitIndex factor outer inner) h.bound)
          (body.substVar h.var (Proc.splitIndex factor outer inner))]))
    (ht : (Stmt.loop h body).trace .checked c callee env st.layout = some (acts, env)) :
    Ends (Meets c exec (SplitOverflows factor outer inner) env st
        [.loop ⟨outer, bound, mode⟩ [.loop ⟨inner, .int factor, mode⟩ inside]])
      ((Stmt.loop ⟨outer, bound, mode⟩ [.loop ⟨inner, .int factor, mode⟩ inside]).exec c exec env)
      st env (perform acts st) := by
  have hpos := hs.positive
  obtain ⟨n', g, hn, hg, ⟨⟩⟩ := trace_loop.1 ht
  obtain rfl : n' = n := Except.ok.inj ((checked_eval.1 hn).symm.trans hs.bound)
  have hgrows : ∀ k < n'.toInt.toNat, Grows st.layout (g k) := by
    intro k hk
    obtain ⟨e, he⟩ := hg k hk
    exact traceAll_grows hc body he
  obtain ⟨a, ha, rfl, rfl⟩ | ⟨hup, rfl⟩ := hnest
  · -- every round of the nest is one of the loop
    obtain ⟨a₀, ha₀, ha⟩ := Option.bind_eq_some_iff.1 ha
    obtain hover | ⟨m, hm, hmul⟩ := Affine.index_quotient ha₀ ha hs.bound
    · exact exec_loop_overflows hover (.inl ⟨_, _, rfl, rfl, hover⟩)
    have hcount : n'.toInt.toNat = factor.toInt.toNat * m.toInt.toNat := by
      rw [hmul, toNat_mul_of_nonneg (by omega)]
    refine exec_nest_ends_as_loop hm rfl hcount.le hgrows hgrows (fun k _ => .refl _ _)
      fun o ho i hi st' hlay env' henv' => .inl ?_
    have hk : factor.toInt.toNat * o + i < n'.toInt.toNat := by
      rw [hcount]
      calc factor.toInt.toNat * o + i < factor.toInt.toNat * (o + 1) := by rw [Nat.mul_succ]; omega
        _ ≤ factor.toInt.toNat * m.toInt.toNat := Nat.mul_le_mul_left _ ho
    obtain ⟨e, he⟩ := hg _ hk
    obtain ⟨acts, e', hacts, heq⟩ := hs.round hc (Word.toInt_ofNat ho) hi hk he
    rw [if_pos hk, heq.2 st' hlay]
    rw [← henv', ← hlay] at hacts
    exact execAll_of_traceAll hc hruns hacts
  · obtain hover | ⟨m, hm, hle⟩ := Proc.index_roundedUp hs.positive hup hs.bound
    · exact exec_loop_overflows hover (.inl ⟨_, _, rfl, rfl, hover⟩)
    have hcount : n'.toInt.toNat ≤ factor.toInt.toNat * m.toInt.toNat := by
      rw [← toNat_mul_of_nonneg (by omega)]
      exact Int.toNat_le_toNat hle
    have hsame : ∀ k < n'.toInt.toNat, EquivIn α st.layout (scope st.layout (g k))
        (scope st.layout (scope st.layout (g k))) :=
      fun k hk => ((Equiv.scope_of_closes (hgrows k hk).scope).toIn α).symm
    refine exec_nest_ends_as_loop hm rfl hcount hgrows
      (fun k hk => (hgrows k hk).scope.grows) hsame fun o ho i hi st' hlay env' henv' => ?_
    rw [← hlay] at hg
    have hguarded := exec_guarded_ends hc hruns hs (Word.toInt_ofNat ho) hi (hg _) henv'
    rwa [hlay] at hguarded

end rounds

end nest

/-! ## Kernels -/

section kernels

variable {α : Type} [Element α]

/-- Every index that the loop takes in the run of the kernel is put together from its parts without
loss, as data. -/
def Proc.SplitsExactly (p : Proc) (c : Catalog) (args : Args α) (loop : String) (factor : Word) :
    Prop :=
  ∀ path h body env st n, p.pickLoop loop = .ok (path, h, body) → p.Reaches c args path env st →
    env.index h.bound = .ok n → ExactParts α factor n

/-- **Splitting keeps results.** A valid kernel runs to its end, and splitting a loop of it, perfectly
or with a guard, is accepted. The new kernel runs to its end with the same tensors, or it overflows at
the bound of the outer loop or at the index that the guard looks at. -/
theorem Proc.run_split {p q : Proc} {c : Catalog} {args : Args α} {templates : Scope.Templates}
    {loop outer inner : String} {factor : Word} {perfect : Bool}
    (hvalid : p.problems templates = []) (hq : p.split loop factor outer inner perfect = .ok q)
    (hexact : p.SplitsExactly c args loop factor) (hrun : (p.run c args).1 = .ok ()) :
    q.run c args = (.ok (), (p.run c args).2) ∨
      (q.run c args).1 = .error .overflow ∧
        q.Meets c args (Stmt.SplitOverflows factor outer inner) := by
  obtain ⟨s⟩ := splitLoop_of_split hq
  obtain ⟨b, hreplaced, rfl, -⟩ := replaced_of_replaceStmt s.stmt s.replaced
  have hbound : ∀ x, x = s.h.var ∨ x ∈ s.body.binders → x ∈ p.boundNames := by
    intro x hx
    have ⟨rest, hrecast⟩ := hreplaced
    refine List.mem_append_right _ (hrecast.mem_binders ?_)
    rw [Block.binders_cons]
    refine List.mem_append_left _ ?_
    simpa [Stmt.nested, Stmt.binds?, Block.binders, Block.nested] using hx
  have hsame : p.run c args = (.ok (), (p.run c args).2) := Prod.ext hrun rfl
  rw [← hsame]
  refine Proc.run_replaced_or_overflows (Proc.freshAll hvalid) rfl hreplaced
    (fun seen env st acts hreach htidy hfresh ht => ?_) hrun
  obtain ⟨n, g, hn, -, -⟩ := Stmt.trace_loop.1 ht
  have hindex := Evaluator.checked_eval.1 hn
  have hsplits : env.Splits α s.h s.body factor n outer inner := {
    positive := Int64.lt_iff_toInt_lt.1 s.positive
    distinct := s.distinct
    freshVar := htidy.bound _ hfresh.1
    freshOuter := hreach.lookup_eq_none s.freshOuter
    freshInner := hreach.lookup_eq_none s.freshInner
    binders := fun x hx => ⟨fun h => s.freshOuter (h ▸ hbound x hx),
      fun h => s.freshInner (h ▸ hbound x hx)⟩
    free := hfresh.2.not_mem_binders (.head _)
    bound := hindex
    exact := hexact _ _ _ env st n s.picked hreach hindex }
  exact Stmt.exec_split_ends c.calls_closed c.calls_runs hsplits s.nest ht

end kernels

/-- Rational arithmetic loses nothing. -/
theorem exactParts_rat (factor n : Word) : ExactParts ℚ factor n := by
  intro o i k _ _ _ hk _
  show (factor.toInt : ℚ) * (o.toInt : ℚ) + (i.toInt : ℚ) = (k.toInt : ℚ)
  exact_mod_cast hk.symm

/-- Adds to every element but the first its number, by way of a temporary. -/
def ramp : Proc where
  name := "ramp"
  params := [.size "n", .buffer ⟨"x", .f32, [.add (.var "n") (.int 1)], .dram⟩]
  body := [.loop ⟨"i", .add (.var "n") (.int 1), .seq⟩ [
    .alloc ⟨"t", .f32, [.int 1], .dram⟩,
    .store .set "t" [.int 0] (.var "i"),
    .guard (.binary .le (.int 1) (.var "i")) [.store .add "x" [.var "i"] (.read "t" [.int 0])]]]

/-- The second round of the outer loop is incomplete. -/
theorem ramp_split :
    let args : Args ℚ := ⟨[("n", 4)], [("x", ⟨.f32, [5], #[7, 7, 7, 7, 7]⟩)]⟩
    let index : Expr := .add (.mul (.int 4) (.var "io")) (.var "ii")
    let q : Proc := { ramp with body := [.loop ⟨"io", .div (.add (.add (.var "n") (.int 1)) (.int 3))
      (.int 4), .seq⟩ [.loop ⟨"ii", .int 4, .seq⟩ [
        .guard (.binary .lt index (.add (.var "n") (.int 1))) [
          .alloc ⟨"t", .f32, [.int 1], .dram⟩,
          .store .set "t" [.int 0] index,
          .guard (.binary .le (.int 1) index) [.store .add "x" [index] (.read "t" [.int 0])]]]]] }
    ramp.problems (some (Catalog.find? {})) = [] ∧
      ramp.split "i" 4 "io" "ii" false = .ok q ∧
      ramp.SplitsExactly {} args "i" 4 ∧ (ramp.run {} args).1 = .ok () ∧
      q.run {} args = (.ok (), (ramp.run {} args).2) := by
  intro args index q
  have hvalid : ramp.problems (some (Catalog.find? {})) = [] := rfl
  have hsplit : ramp.split "i" 4 "io" "ii" false = .ok q := by cbv
  have hexact : ramp.SplitsExactly {} args "i" 4 :=
    fun _ _ _ _ _ n _ _ _ => exactParts_rat 4 n
  have hrun : (ramp.run {} args).1 = .ok () := by cbv
  have hok : (q.run {} args).1 = .ok () := by cbv
  refine ⟨hvalid, hsplit, hexact, hrun, ?_⟩
  refine (Proc.run_split hvalid hsplit hexact hrun).resolve_right fun hover => ?_
  rw [hok] at hover
  cases hover.1

end LoopNest
