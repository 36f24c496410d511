import LoopNest.Proofs.Contract.Schedule
import LoopNest.Proofs.Matching.Progress
import LoopNest.Proofs.Splice

/-!
# Windows of a matched call stay in bounds

The window of a parameter has the extent that the template declares, while the code it stands for is
only known to stay in bounds where it goes. Both fit together if the template goes everywhere: if it
touches the first and the last coordinate of every dimension of every parameter (`Proc.Fills`). Then
the windows of a call that was put in for a match can be taken in every state that the run comes to
(`Proc.windows_of_replace`), unless a bound overflows on the way to its value.

A template that leaves out the end of a parameter can be matched with code on a smaller buffer, and
the window reaches beyond it (`clearHalf_outside`).
-/

namespace LoopNest

open Exec Stmt Evaluator Scope

variable {templates : Templates} {Q : List Word → Prop} {ns : List Word} {site : Site}
  {cat : Catalog} {callee : Callee} {acts : List Action} {path : Path}

/-! ## Stores that a template comes to -/

mutual

/-- `P` holds of some store, in an environment in which it runs. -/
def Stmt.Somewhere (P : Env → Stmt → Prop) (env : Env) : Stmt → Prop
  | .loop h body => ∃ n, env.index h.bound = .ok n ∧ ∃ k < n.toInt.toNat,
      Stmt.SomewhereIn P (env.bind h.var (.index (Int64.ofNat k))) body
  | .guard e body => env.condition e = .ok true ∧ Stmt.SomewhereIn P env body
  | s => P env s

/-- The same for some statement of a block. -/
def Stmt.SomewhereIn (P : Env → Stmt → Prop) (env : Env) : List Stmt → Prop
  | [] => False
  | s :: rest => s.Somewhere P env ∨ Stmt.SomewhereIn P env rest

end

/-- What holds of all stores holds of those that are found. -/
theorem Stmt.AlongAll.somewhere {P : Env → Stmt → Stmt → Prop} {Q R : Env → Stmt → Prop} {b : Block}
    {env : Env} (h : AlongAll P env b b) (hQ : SomewhereIn Q env b)
    (himp : ∀ env s, P env s s → Q env s → R env s) : SomewhereIn R env b := by
  induction b using Block.induction generalizing env with
  | nil => exact hQ
  | cons s rest ihs ihrest =>
    obtain hhead | hrest := hQ
    · left
      have halong := h.1
      cases s with
      | loop hd body =>
        obtain ⟨n, hn, k, hk, hbody⟩ := hhead
        exact ⟨n, hn, k, hk, ihs body rfl (halong n hn k hk) hbody⟩
      | guard e body => exact ⟨hhead.1, ihs body rfl (halong hhead.1) hhead.2⟩
      | _ => exact himp _ _ halong hhead
    · exact .inr (ihrest h.2 hrest)

namespace Proc

/-- The body comes to an access to the parameter with indices of which `Q` holds. -/
def Touches (t : Proc) (d : Decl) (Q : List Word → Prop) : Prop :=
  Stmt.SomewhereIn (fun env s => ∃ idx ns, (d.name, idx) ∈ s.accesses ∧ env.indices idx = .ok ns ∧
    Q ns) [] t.body

/-- The body touches every parameter, at the first and the last coordinate of all dimensions. -/
def Fills (t : Proc) : Prop :=
  ∀ d ∈ t.bufferParams, t.Touches d (fun _ => True) ∧
    ∀ (j : Nat) (n : Word), (d.shape[j]?).bind (·.int?) = some n →
      t.Touches d (fun ns => ∃ i, ns[j]? = some i ∧ i.toInt = 0) ∧
      t.Touches d (fun ns => ∃ i, ns[j]? = some i ∧ i.toInt + 1 = n.toInt)

theorem Touches.within {t : Proc} {d : Decl} (h : t.Touches d Q) (hinside : t.StaysInside)
    (hd : d ∈ t.bufferParams) : t.Touches d fun ns => Matching.Within d.shape ns ∧ Q ns := by
  refine hinside.somewhere h fun env s hin ⟨idx, ns, hmem, hns, hQ⟩ => ?_
  exact ⟨idx, ns, hmem, hns, hin d hd idx hmem ns hns, hQ⟩

end Proc

/-! ## Windows with enough room -/

/-- A dimension of a window lies within a dimension of a whole tensor. -/
def RoomFor (env : Env) (dim : ViewDim) (d : WindowDim) : Prop :=
  ∃ extent, dim = .free 0 extent ∧
    match d with
    | .point e => ∃ z, env.wide? e = some z ∧ 0 ≤ z ∧ z < extent.toInt
    | .interval lo hi => ∃ l u, env.wide? lo = some l ∧ env.wide? hi = some u ∧ 0 ≤ l ∧ l ≤ u ∧
        u ≤ extent.toInt

theorem exists_word {z : Int} {n : Word} (hlo : 0 ≤ z) (hhi : z ≤ n.toInt) :
    ∃ k : Word, k.toInt = z := by
  have hn := Word.toInt_mem n
  exact ⟨Int64.ofInt z, Int64.toInt_ofInt_of_le (by omega) (by omega)⟩

/-- A window with enough room can be cut out. -/
theorem narrows_of_room {env : Env} {dims : List ViewDim} {ds : List WindowDim}
    (h : List.Forall₂ (RoomFor env) dims ds) :
    ∃ cuts dims', wide.cuts env ds = some cuts ∧ View.Narrows dims cuts dims' := by
  simp only [cuts_eq_some]
  induction h with
  | nil => exact ⟨[], [], .nil, .nil⟩
  | @cons dim d dims ds hroom _ ih =>
    obtain ⟨cuts, dims', hcuts, hdims⟩ := ih
    obtain ⟨extent, rfl, hroom⟩ := hroom
    cases d with
    | point e =>
      obtain ⟨z, hz, hlo, hhi⟩ := hroom
      obtain ⟨p, rfl⟩ := exists_word hlo hhi.le
      exact ⟨.point p :: cuts, .fixed p :: dims',
        .cons (cut_point.2 ⟨p, wide_eval.2 hz, rfl⟩) hcuts,
        .point hlo hhi (Int.zero_add _).symm hdims⟩
    | interval lo hi =>
      obtain ⟨l, u, hl, hu, hlo, hle, hhi⟩ := hroom
      obtain ⟨l, rfl⟩ := exists_word hlo (hle.trans hhi)
      obtain ⟨u, rfl⟩ := exists_word (hlo.trans hle) hhi
      obtain ⟨count, hcount⟩ := exists_word (z := u.toInt - l.toInt) (n := u) (by omega) (by omega)
      exact ⟨.range l u :: cuts, .free l count :: dims', .cons (cut_interval.2
        ⟨l, u, wide_eval.2 hl, wide_eval.2 hu, rfl⟩) hcuts,
        .range hlo hle hhi (Int.zero_add _).symm hcount hdims⟩

/-! ## Elements of a window -/

namespace Matching

/-- The element `ts` of the window that starts at a site is an element of the buffer, which has the
dimensions `dims`. -/
inductive Hits (env : Env) : (lead : List Expr) → (offsets : List Affine) → (ts : List Word) →
    (dims : List ViewDim) → Prop
  | nil : Hits env [] [] [] []
  | point {e : Expr} {z : Int} {extent : Word} {lead : List Expr} {offsets : List Affine}
      {ts : List Word} {dims : List ViewDim} : env.wide? e = some z → 0 ≤ z → z < extent.toInt →
    Hits env lead offsets ts dims → Hits env (e :: lead) offsets ts (.free 0 extent :: dims)
  | range {o : Affine} {t extent : Word} {offsets : List Affine} {ts : List Word}
      {dims : List ViewDim} : 0 ≤ o.value env.valuation + t.toInt →
    o.value env.valuation + t.toInt < extent.toInt → Hits env [] offsets ts dims →
    Hits env [] (o :: offsets) (t :: ts) (.free 0 extent :: dims)

theorem Hits.length_eq {env : Env} {lead : List Expr} {offsets : List Affine} {ts : List Word}
    {dims : List ViewDim} (h : Hits env lead offsets ts dims) : offsets.length = ts.length := by
  induction h with
  | nil => rfl
  | point _ _ _ _ ih => exact ih
  | range _ _ _ ih => exact congrArg Nat.succ ih

/-- An index within a shape with a constant extent. -/
theorem Within.getElem? {shape : List Expr} (h : Within shape ns) {j : Nat} {i n : Word}
    (hi : ns[j]? = some i) (hn : (shape[j]?).bind (·.int?) = some n) :
    0 ≤ i.toInt ∧ i.toInt < n.toInt := by
  induction h generalizing j with
  | nil => cases hi
  | cons hhead _ ih =>
    cases j with
    | zero =>
      obtain ⟨m, hm, hlo, hhi⟩ := hhead
      cases hi
      obtain rfl := Option.mem_unique hm hn
      exact ⟨hlo, hhi⟩
    | succ j => exact ih hi hn

/-- In every dimension of a shape the first and the last coordinate are hit. -/
def Spans (env : Env) (lead : List Expr) (offsets : List Affine) (shape : List Expr)
    (dims : List ViewDim) : Prop :=
  ∀ (j : Nat) (n : Word), (shape[j]?).bind (·.int?) = some n → 0 < n.toInt ∧
    (∃ ts i, Hits env lead offsets ts dims ∧ ts[j]? = some i ∧ i.toInt = 0) ∧
    ∃ ts i, Hits env lead offsets ts dims ∧ ts[j]? = some i ∧ i.toInt + 1 = n.toInt

section room

variable {env : Env} {lead shape : List Expr} {offsets : List Affine} {intervals : List WindowDim}
  {dims : List ViewDim} {ts : List Word}

theorem room_intervals (hhit : Hits env [] offsets ts dims)
    (hspans : Spans env [] offsets shape dims) (hlen : offsets.length = shape.length)
    (hintervals : Intervals offsets shape intervals)
    (hvalued : ∀ d ∈ intervals, ∀ e ∈ d.exprs, ∀ v ∈ e.vars, (env.value? v).isSome) :
    List.Forall₂ (RoomFor env) dims intervals := by
  induction shape generalizing offsets intervals dims ts with
  | nil =>
    obtain rfl := List.length_eq_zero_iff.1 hlen
    cases hhit
    cases hintervals
    exact .nil
  | cons extent shape ih =>
    cases hhit with
    | nil => cases hlen
    | @range o t m offsets ts dims _ _ hhit =>
      obtain _ | ⟨⟨n, hi, hn, hhi, rfl⟩, hintervals⟩ := hintervals
      rw [List.forall_mem_cons] at hvalued
      refine .cons ?_ (ih hhit (fun j n hj => ?_) (Nat.succ.inj hlen) hintervals hvalued.2)
      · -- the first hit bounds the start of the interval, the last one its end
        obtain ⟨hpos, ⟨ts₁, i₁, h₁, hi₁, hfirst⟩, ts₂, i₂, h₂, hi₂, hlast⟩ := hspans 0 n hn
        have hlo := Affine.wide?_toExpr fun v hv =>
          hvalued.1 o.toExpr (by simp [WindowDim.exprs]) v (o.vars_toExpr ▸ hv)
        have hhi' := Affine.wide?_toExpr fun v hv =>
          hvalued.1 hi.toExpr (by simp [WindowDim.exprs]) v (hi.vars_toExpr ▸ hv)
        rw [(Affine.addConstant?_eq_some hhi).2] at hhi'
        refine ⟨m, rfl, _, _, hlo, hhi', ?_⟩
        cases h₁ with
        | range hmin _ _ =>
          cases hi₁
          cases h₂ with
          | range _ hmax _ =>
            cases hi₂
            omega
      · obtain ⟨hpos, ⟨ts₁, i₁, h₁, hi₁, hfirst⟩, ts₂, i₂, h₂, hi₂, hlast⟩ := hspans (j + 1) n hj
        cases h₁ with
        | range _ _ h₁ =>
          cases h₂ with
          | range _ _ h₂ => exact ⟨hpos, ⟨_, i₁, h₁, hi₁, hfirst⟩, _, i₂, h₂, hi₂, hlast⟩

/-- A window that starts at a site has enough room if its elements are hit, and among them those at
both ends of every dimension. -/
theorem room_of_hits (hhit : Hits env lead offsets ts dims)
    (hspans : Spans env lead offsets shape dims) (hlen : offsets.length = shape.length)
    (hintervals : Intervals offsets shape intervals)
    (hvalued : ∀ d ∈ intervals, ∀ e ∈ d.exprs, ∀ v ∈ e.vars, (env.value? v).isSome) :
    List.Forall₂ (RoomFor env) dims (lead.map .point ++ intervals) := by
  induction lead generalizing dims with
  | nil => exact room_intervals hhit hspans hlen hintervals hvalued
  | cons e lead ih =>
    cases hhit with
    | point hz hlo hhi hhit =>
      refine .cons ⟨_, rfl, _, hz, hlo, hhi⟩ (ih hhit fun j n hj => ?_)
      obtain ⟨hpos, ⟨ts₁, i₁, h₁, hfirst⟩, ts₂, i₂, h₂, hlast⟩ := hspans j n hj
      cases h₁ with
      | point _ _ _ h₁ =>
        cases h₂ with
        | point _ _ _ h₂ => exact ⟨hpos, ⟨ts₁, i₁, h₁, hfirst⟩, ts₂, i₂, h₂, hlast⟩

end room

/-! ## Accesses of the code -/

/-- The indices are within the dimensions of a whole tensor. -/
def InsideWhole (ks : List Word) (dims : List ViewDim) : Prop :=
  List.Forall₂ (fun k dim => ∃ extent, dim = .free 0 extent ∧ 0 ≤ k.toInt ∧ k.toInt < extent.toInt)
    ks dims

/-- The indices of an access that succeeds are within a whole tensor. -/
theorem inside_of_finds {dims : List ViewDim} (hwhole : ViewDim.Whole dims)
    {ks cs : List Word} (h : View.Finds dims ks cs) : InsideWhole ks dims := by
  induction h with
  | nil => exact .nil
  | fixed c _ _ =>
    obtain ⟨⟨_, hd⟩, -⟩ := List.forall_mem_cons.1 hwhole
    cases hd
  | free hlo hhi _ _ ih =>
    obtain ⟨⟨extent, hd⟩, hrest⟩ := List.forall_mem_cons.1 hwhole
    cases hd
    exact .cons ⟨_, rfl, hlo, hhi⟩ (ih hrest)

theorem indices_of_checked {env : Env} {es : List Expr}
    (h : checked.indices env es = some ns) : env.indices es = .ok ns :=
  eq_ok_of_checked (checked.indices_tallies (List.Subset.refl _)) h

namespace Relates

variable {sites : String → Option Site} {ρ : Renaming} {inner outer tenv cenv : Env}
  {tsc csc : Scope}
variable {offsets : List Affine} {dims : List ViewDim}

/-- Before the first statement, whatever the parameters of the template stand for. -/
theorem start {t : Proc} (hbuffers : ∀ q ∈ t.params, ∃ d, q = .buffer d) (hfits : outer.Fits csc) :
    Relates [] [] outer t.scope csc [] outer where
  template := ⟨fun v hv => by simp [Proc.isIndex_scope hbuffers] at hv, fun x hx => by cases hx⟩
  code := hfits
  value v hv := by simp [Proc.isIndex_scope hbuffers] at hv
  outside _ _ := rfl
  templateView _ := rfl
  codeView _ := rfl

variable (h : Relates ρ inner outer tsc csc tenv cenv)
include h

/-- The point of a window has the value of the leading index. -/
theorem wide?_of_point {e e' : Expr} {k : Word} (hk : cenv.index e' = .ok k)
    (hsame : e = e' ∨ e.sameIndex e' = true) (hfixed : ∀ v ∈ ρ.map (·.2), e'.mentions v = false)
    (hvalued : ∀ v ∈ e.vars, (outer.value? v).isSome) : outer.wide? e = some k.toInt := by
  have hcode : outer.wide? e' = some k.toInt := by
    rw [← Env.wide?_congr fun _ => h.value?_of_fixed hfixed, Env.wide?_of_index hk]
  obtain rfl | hsame := hsame
  · exact hcode
  · rw [Env.wide?_eq_of_sameIndex hsame hvalued (Env.value?_isSome_of_wide? hcode), hcode]

theorem hits_ranges {tidx tail : List Expr} {ts ks : List Word}
    (ht : ∀ e ∈ tidx, tsc.checkIndex e = []) (hc : ∀ e ∈ tail, csc.checkIndex e = [])
    (hlen : tidx.length = tail.length)
    (hfollow : List.Forall₂ (fun offset tc => ∃ lo, offset.same lo = true ∧ Follows ρ lo tc.1 tc.2)
      offsets (tidx.zip tail))
    (hts : tenv.IndexValues tidx ts)
    (hks : cenv.IndexValues tail ks)
    (hin : InsideWhole ks dims) : Hits outer [] offsets ts dims := by
  induction tidx generalizing tail offsets ts ks dims with
  | nil =>
    obtain rfl := List.length_eq_zero_iff.1 hlen.symm
    cases hts
    cases hks
    cases hfollow
    cases hin
    exact .nil
  | cons t tidx ih =>
    obtain _ | ⟨c, tail⟩ := tail
    · cases hlen
    obtain _ | ⟨hτ, hts⟩ := hts
    obtain _ | ⟨hκ, hks⟩ := hks
    obtain _ | ⟨⟨extent, rfl, hlo, hhi⟩, hin⟩ := hin
    obtain _ | ⟨⟨lo, hsame, hfollows⟩, hfollow⟩ := hfollow
    rw [List.forall_mem_cons] at ht hc
    obtain ⟨z, hz, hcode⟩ := h.wide?_of_follows ht.1 hc.1 hfollows
    rw [Env.wide?_of_index hτ, Option.some.injEq] at hz
    rw [Env.wide?_of_index hκ, Option.some.injEq, ← hz, ← Affine.value_of_same hsame] at hcode
    exact .range (by omega) (by omega) (ih ht.2 hc.2 (Nat.succ.inj hlen) hfollow hts hks hin)

/-- The leading indices are the points of the window. -/
theorem hits_points {points lead tail : List Expr} {ts ks : List Word}
    (hfixed : ∀ e ∈ lead, ∀ v ∈ ρ.map (·.2), e.mentions v = false)
    (hvalued : ∀ e ∈ points, ∀ v ∈ e.vars, (outer.value? v).isSome)
    (hlead : List.Forall₂ (fun e e' => e = e' ∨ e.sameIndex e' = true) points lead)
    (hks : cenv.IndexValues (lead ++ tail) ks)
    (hin : InsideWhole ks dims)
    (hranges : ∀ ks dims, cenv.IndexValues tail ks →
      InsideWhole ks dims → Hits outer [] offsets ts dims) :
    Hits outer points offsets ts dims := by
  induction hlead generalizing ks dims with
  | nil => exact hranges ks dims hks hin
  | cons hsame _ ih =>
    obtain _ | ⟨hk, hks⟩ := hks
    obtain _ | ⟨⟨extent, rfl, hlo, hhi⟩, hin⟩ := hin
    rw [List.forall_mem_cons] at hfixed hvalued
    exact .point (h.wide?_of_point hk hsame hfixed.1 hvalued.1) hlo hhi
      (ih hfixed.2 hvalued.2 hks hin)

/-- **An access of the code hits the element that the template's access means.** -/
theorem hits (hwhole : outer.ViewsWhole)
    {p b : String} {tidx cidx : List Expr} (hsite : sites p = some site)
    (hal : AccessAligned sites ρ p tidx b cidx) (ht : ∀ e ∈ tidx, tsc.checkIndex e = [])
    (hc : ∀ e ∈ cidx, csc.checkIndex e = [])
    (hvalued : ∀ e ∈ site.lead, ∀ v ∈ e.vars, (outer.value? v).isSome) {ts : List Word}
    (hts : tenv.indices tidx = .ok ts) {lay : Layout} {place : Place}
    (hplace : checked.place cenv lay b cidx = some place) :
    ∃ v, outer.view? site.buf = some v ∧ Hits outer site.lead site.offsets ts v.dims := by
  obtain ⟨hsite', hbuf, rfl, hlen, hlead, hfixed, hfollow⟩ := hal
  obtain rfl := Option.mem_unique hsite' hsite
  obtain ⟨v, ks, hv, hks, hplace⟩ := place_eq_some.1 hplace
  obtain ⟨cs, -, hcs, -⟩ := View.place?_eq_some.1 hplace
  rw [h.codeView] at hv
  refine ⟨v, hbuf ▸ hv, ?_⟩
  have hin := inside_of_finds (hwhole _ _ hv) hcs
  replace hks := Env.indices_eq_ok.1 (indices_of_checked hks)
  refine h.hits_points hfixed hvalued hlead hks hin fun ks dims hks hin => ?_
  exact h.hits_ranges ht (fun e he => hc e (List.mem_append_right _ he)) hlen hfollow
    (Env.indices_eq_ok.1 hts) hks hin

end Relates

/-! ## Elements that the code comes to -/

/-- Index expressions hold no accesses. -/
theorem accesses_of_checkIndex {sc : Scope} {e : Expr} (h : sc.checkIndex e = []) :
    e.accesses = [] := by
  induction e with
  | float x | read b idx => cases h
  | binary op l r ihl ihr =>
    obtain ⟨-, hl, hr⟩ := checkIndex_binary.1 h
    exact List.append_eq_nil_iff.2 ⟨rfl, List.append_eq_nil_iff.2 ⟨ihl hl, ihr hr⟩⟩
  | neg e ih => exact ih h
  | _ => rfl

/-- The code makes the access `b[cidx]`, which is aligned with `p[tidx]`, and it succeeds. -/
structure Meets (sites : String → Option Site) (ρ : Renaming) (tsc csc : Scope) (cenv : Env)
    (lay : Layout) (p : String) (tidx : List Expr) (b : String) (cidx : List Expr) : Prop where
  aligned : AccessAligned sites ρ p tidx b cidx
  template : tsc.checkAccess p tidx = []
  code : csc.checkAccess b cidx = []
  place : ∃ place, checked.place cenv lay b cidx = some place

section meets

variable {sites : String → Option Site} {ρ : Renaming} {tsc csc : Scope} {cenv : Env} {lay : Layout}
  {p : String} {tidx : List Expr}

theorem DataAligned.meets {t c : Expr} (h : DataAligned sites ρ t c) (ht : tsc.checkData t = [])
    (hc : csc.checkData c = []) {τ : Term} (hterm : checked.term cenv lay c = some τ)
    (hmem : (p, tidx) ∈ t.accesses) : ∃ b cidx, Meets sites ρ tsc csc cenv lay p tidx b cidx := by
  induction h generalizing τ with
  | @read q b qidx cidx hal =>
    rw [Expr.accesses, Expr.collect, Expr.collectAll_eq_flatMap, List.mem_append] at hmem
    obtain hmem | hmem := hmem
    · obtain ⟨⟩ := List.mem_singleton.1 hmem
      obtain ⟨place, hload, -⟩ := term_read.1 hterm
      exact ⟨b, cidx, hal, ht, hc, place, (load_eq_some.1 hload).1⟩
    · -- there are no accesses in index expressions
      obtain ⟨e, he, hmem⟩ := List.mem_flatMap.1 hmem
      have hnone := accesses_of_checkIndex ((checkAccess_eq_nil.1 ht).2 e he)
      rw [Expr.accesses] at hnone
      rw [hnone] at hmem
      cases hmem
  | float _ | int | var _ => cases hmem
  | binary _ _ ihl ihr =>
    obtain ⟨-, htl, htr⟩ := checkData_binary.1 ht
    obtain ⟨-, hcl, hcr⟩ := checkData_binary.1 hc
    obtain ⟨-, τl, τr, hτl, hτr, -⟩ := term_binary.1 hterm
    simp only [Expr.accesses, Expr.collect, List.nil_append, List.mem_append] at hmem
    exact hmem.elim (ihl htl hcl hτl) (ihr htr hcr hτr)
  | neg _ ih =>
    obtain ⟨τ', hτ', -⟩ := Option.map_eq_some_iff.1 hterm
    simp only [Expr.accesses, Expr.collect, List.nil_append] at hmem
    exact ih ht hc hτ' hmem

theorem StmtAligned.meets {e : Env} {t s : Stmt} (h : StmtAligned sites ρ t s)
    (ht : t.WellScoped none tsc) (hs : s.WellScoped templates csc)
    (htrace : s.trace .checked cat callee cenv lay = some (acts, e))
    (hmem : (p, tidx) ∈ t.accesses) : ∃ b cidx, Meets sites ρ tsc csc cenv lay p tidx b cidx := by
  cases h with
  | loop | guard => cases hmem
  | @store _ u q b qidx cidx trhs crhs htarget hdata =>
    obtain ⟨htq, htrhs⟩ := List.append_eq_nil_iff.1 ht
    obtain ⟨hsb, hsrhs⟩ := List.append_eq_nil_iff.1 hs
    obtain ⟨τ, place, hτ, hplace, -⟩ := trace_store.1 htrace
    obtain hmem | hmem := List.mem_cons.1 hmem
    · obtain ⟨rfl, rfl⟩ := Prod.mk.inj hmem
      exact ⟨b, cidx, htarget, htq, hsb, place, hplace⟩
    · exact hdata.meets htrhs hsrhs hτ hmem

end meets

/-- **Where the template touches a parameter, the code hits the window.** The induction is on the
template's body; its loops and guards take the code where it goes itself. -/
theorem exists_hit {sites : String → Option Site} {ρ : Renaming} {inner outer tenv cenv e : Env}
    {tsc csc : Scope}
    (hc : callee.Closed) {x : String} {ts cs : Block}
    {lay : Layout} (hsite : sites x = some site)
    (hwhole : outer.ViewsWhole)
    (hvalued : ∀ e ∈ site.lead, ∀ v ∈ e.vars, (outer.value? v).isSome)
    (hal : BlockAligned sites ρ ts cs) (hrel : Relates ρ inner outer tsc csc tenv cenv)
    (htemplate : WellScopedAll none tsc ts) (hcode : WellScopedAll templates csc cs)
    (htouch : Stmt.SomewhereIn (fun env s => ∃ idx ns, (x, idx) ∈ s.accesses ∧
      env.indices idx = .ok ns ∧ Q ns) tenv ts)
    (htrace : traceAll .checked cat callee cenv lay cs = some (acts, e)) :
    ∃ v ns, outer.view? site.buf = some v ∧ Hits outer site.lead site.offsets ns v.dims ∧ Q ns := by
  induction ts using Block.induction generalizing ρ tsc csc tenv cenv cs lay acts e with
  | nil => cases htouch
  | cons t ts ihs ihrest =>
    obtain _ | ⟨s, cs⟩ := cs
    · cases hal
    obtain _ | ⟨hstmt, hrest⟩ := hal
    obtain ⟨a, e₁, a', e₂, hs, htail, -⟩ := traceAll_cons.1 htrace
    obtain hhead | htouch := htouch
    · cases hstmt with
      | @loop _ th ch tbody cbody n hn hcount _ hbody =>
        obtain ⟨m, hm, k, hk, htouch⟩ := hhead
        obtain ⟨m', g, hm', hg, -⟩ := trace_loop.1 hs
        obtain ⟨hch, hw⟩ := checkStmt_loop.1 hcode.1.1
        obtain ⟨-, hv⟩ := checkStmt_loop.1 htemplate.1.1
        -- both loops have the same number of rounds, so the code has a round `k` as well
        have hagrees := hrel.bound_agrees hn hcount hch
        rw [hm, checked_eval.1 hm'] at hagrees
        obtain (heq | _) | hf | hf := hagrees
        · subst heq
          obtain ⟨e', he'⟩ := hg k hk
          exact ihs tbody rfl hbody (hrel.bind hv hw _) htemplate.1.2 hcode.1.2 htouch he'
        · cases hf
        · cases hf
      | @guard _ te ce tbody cbody hcond hbody =>
        obtain ⟨hte, htouch⟩ := hhead
        have hagrees := hrel.condition_agrees htemplate.1.1 hcode.1.1 hcond
        obtain ⟨hfalse, -⟩ | ⟨-, x, e', hx, -⟩ := trace_guard.1 hs
        · rw [hte, condition_of_checked hfalse] at hagrees
          obtain (heq | _) | hf | hf := hagrees
          · cases heq
          · cases hf
          · cases hf
        · exact ihs tbody rfl hbody hrel htemplate.1.2 hcode.1.2 htouch hx
      | store htarget hdata =>
        obtain ⟨idx, ns, hmem, hns, hQ⟩ := hhead
        obtain ⟨b, cidx, hmeets⟩ :=
          (StmtAligned.store htarget hdata).meets htemplate.1 hcode.1 hs hmem
        obtain ⟨place, hplace⟩ := hmeets.place
        obtain ⟨v, hv, hhit⟩ := hrel.hits hwhole hsite hmeets.aligned
          (checkAccess_eq_nil.1 hmeets.template).2 (checkAccess_eq_nil.1 hmeets.code).2
          hvalued hns hplace
        exact ⟨v, ns, hv, hhit, hQ⟩
    · -- aligned statements declare nothing, so the rest is in the same scopes
      have hscope : tsc.after t = tsc := by cases hstmt <;> rfl
      have hscope' : csc.after s = csc := by cases hstmt <;> rfl
      have hdecl : s.decl? = none := by cases hstmt <;> rfl
      obtain ⟨-, rfl⟩ := (trace_grows hc hs).1 hdecl
      exact ihrest hrest hrel (hscope ▸ htemplate.2) (hscope' ▸ hcode.2) htouch htail

end Matching

/-! ## The result -/

namespace Proc

/-- A selector picks a statement that is there. -/
theorem stmt?_of_pickStmt {p : Proc} {source : String} (h : p.pickStmt source = .ok path) :
    ∃ s, p.stmt? path = some s := by
  obtain ⟨sel, -, h⟩ := except_bind_eq_ok.1 h
  have hresolve : p.resolveStmt? sel = .ok path := by
    unfold pick at h
    split at h <;> cases h
    assumption
  unfold resolveStmt? at hresolve
  split at hresolve
  · cases hresolve
  obtain ⟨cursor, hcursor, rfl⟩ : ∃ cursor, p.resolve? sel = .ok cursor ∧ cursor.path = path := by
    cases hr : p.resolve? sel <;> rw [hr] at hresolve <;> cases hresolve
    exact ⟨_, rfl, rfl⟩
  have hfound := mem_findAll.1 (mem_findAll_of_resolve? hcursor)
  cases cursor with
  | stmt path =>
    obtain ⟨s, hs, -⟩ := hfound
    exact ⟨s, hs⟩
  | expr path slot steps =>
    obtain ⟨_, sub, -, hsub, -⟩ := hfound
    obtain ⟨s, hs, -⟩ := Option.bind_eq_some_iff.1 hsub
    exact ⟨s, hs⟩

/-- The bounds of the windows of a call are made of variables with a value. -/
theorem Reaches.valued_of_call {α : Type} [Element α] {p : Proc} {c : Catalog} {args : Args α}
    {env : Env} {st : Store α} (h : p.Reaches c args path env st)
    (hvalid : p.problems templates = []) {name : String} {windows : List Window}
    (hcall : p.stmt? path = some (.call name windows)) {w : Window} (hw : w ∈ windows) :
    ∀ e ∈ w.exprs, ∀ v ∈ e.vars, (env.value? v).isSome := by
  obtain ⟨sc, seen, code, hfrom, hscoped, hfits, -⟩ := h.fits hvalid
  obtain ⟨rest, hrest⟩ := Block.from?_of_get? hcall
  obtain rfl := Option.mem_unique hfrom hrest
  have hcheck := List.flatMap_eq_nil_iff.1 (List.append_eq_nil_iff.1 hscoped.1).1 w hw
  intro e he v hv
  have hindex := List.flatMap_eq_nil_iff.1 (List.append_eq_nil_iff.1 hcheck).2 e he
  exact hfits.value v (isIndex_of_checkIndex hindex v hv)

/-- **Windows of a matched call stay in bounds.** A call is put in the place of statements of a
valid kernel that match a registered template, which stays inside the shapes of its parameters and
touches both ends of every dimension of them. On all arguments on which the kernel ran to its end,
and in every state that the run of the new kernel comes to at the call, each window of it can be
taken, unless the machine overflows on the way to the value of one of its bounds. -/
theorem windows_of_replace {α : Type} [Element α] {c₀ c₁ c : Catalog} {t p out : Proc}
    {templates : Scope.Templates} {args : Args α} {source : String}
    (hreg : c₀.register t = .ok c₁) (hfind : c.find? t.name = some t) (hinside : t.StaysInside)
    (hfills : t.Fills) (hvalid : p.problems templates = [])
    (hreplace : p.replace c t.name source = .ok out) (hrun : (p.run c args).1 = .ok ()) :
    ∃ path call, p.pickStmt source = .ok path ∧ p.matchAt t path = .ok call ∧
      out.stmt? path = some call ∧ ∀ env st, out.Reaches c args path env st →
        ∀ w ∈ call.windows, ∃ v, Gives (Evaluator.wide.MissesIn env w.exprs) (env.window w) v := by
  obtain ⟨t', path, call, b, hfind', hpick, hmatch, hedit, rfl, hvalid'⟩ := of_replace hreplace
  obtain rfl := Option.mem_unique hfind hfind'
  obtain ⟨s, hget⟩ := stmt?_of_pickStmt hpick
  obtain ⟨block, m, windows, hcontainer, hlen, hstmts, hwindows, rfl⟩ := of_matchAt hmatch
  have hpath : path ≠ [] := by
    rintro rfl
    cases hget
  have hspliced := Block.spliced_of_edit? hedit hget (from?_of_container? hpath hcontainer)
  have ⟨_, hrecast⟩ := hspliced
  have hcall : Block.get? path b = some (.call t.name windows) := hrecast.get?
  refine ⟨path, _, hpick, hmatch, hcall, fun env st hreach w hw => ?_⟩
  obtain ⟨d, hd, hwindow⟩ := exists_of_forall₂ hwindows hw
  obtain ⟨htouch, hends⟩ := hfills d hd
  have hbody : t.body ≠ [] := fun hnil => by
    rw [Touches, hnil] at htouch
    exact htouch
  have hcode : (block.drop path.position).take t.body.length ≠ [] := fun hnil => by
    rw [← List.length_eq_zero_iff, List.length_take, Nat.min_eq_left hlen] at hnil
    exact hbody (List.length_eq_zero_iff.1 hnil)
  -- what the old kernel does in this environment
  obtain ⟨st', rest, acts, e, hreach', hfrom, htrace⟩ := hreach.before_splice hspliced hcode hrun
  obtain ⟨sc, seen, code, hfrom', hscoped, hfits, htidy⟩ := hreach'.fits hvalid
  rw [hfrom, Option.some.injEq] at hfrom'
  subst hfrom'
  have hvalued := hreach.valued_of_call hvalid' hcall hw
  obtain ⟨site, intervals, hsite, rfl, hintervals⟩ := Matching.of_window hwindow
  have hexprs : (⟨site.buf, site.lead.map .point ++ intervals⟩ : Window).exprs =
      site.lead ++ intervals.flatMap (·.exprs) := by
    simp [Window.exprs, List.flatMap_map, WindowDim.exprs]
  rw [hexprs] at hvalued
  obtain ⟨hbuffers, hproblems⟩ := Catalog.of_register hreg
  have hrel := Matching.Relates.start hbuffers hfits
  have haligned := (Matching.stmts_aligned hlen (by simp) hstmts).aligned
    (fun x => m.sites.lookup x) fun _ _ h => h
  -- what the template touches of the parameter is hit in the buffer
  have hhit : ∀ {Q : List Word → Prop}, t.Touches d Q → ∃ v ns, env.view? site.buf = some v ∧
      Matching.Hits env site.lead site.offsets ns v.dims ∧ Matching.Within d.shape ns ∧ Q ns :=
    fun hQ => Matching.exists_hit c.calls_closed hsite htidy.plain.whole
      (fun e he => hvalued e (List.mem_append_left _ he)) haligned hrel (Proc.wellScoped hproblems)
      hscoped.append_left (hQ.within hinside hd) htrace
  obtain ⟨v, ns, hv, hhits, hwithin, -⟩ := hhit htouch
  have hspans : Matching.Spans env site.lead site.offsets d.shape v.dims := by
    intro j n hn
    obtain ⟨hfirst, hlast⟩ := hends j n hn
    obtain ⟨v₁, ts₁, hv₁, hits₁, hwithin₁, i₁, hi₁, hzero⟩ := hhit hfirst
    obtain ⟨v₂, ts₂, hv₂, hits₂, -, i₂, hi₂, hend⟩ := hhit hlast
    obtain rfl := Option.mem_unique hv hv₁
    obtain rfl := Option.mem_unique hv hv₂
    have hpos := hwithin₁.getElem? hi₁ hn
    exact ⟨by omega, ⟨ts₁, i₁, hits₁, hi₁, hzero⟩, ts₂, i₂, hits₂, hi₂, hend⟩
  have hroom := Matching.room_of_hits hhits hspans (hhits.length_eq.trans hwithin.length_eq)
    hintervals fun d hd e he => hvalued e (List.mem_append_right _ (List.mem_flatMap.2 ⟨d, hd, he⟩))
  obtain ⟨cuts, dims, hcuts, hdims⟩ := narrows_of_room hroom
  exact ⟨{ v with dims }, (Evaluator.wide.window_tallies _).gives
    (Evaluator.window_eq_some.2 ⟨v, cuts, dims, hv, hcuts, hdims, rfl⟩)⟩

end Proc

theorem iota_fills : iota.Fills := by
  intro d hd
  obtain rfl := List.mem_singleton.1 hd
  -- the access in round `k`
  have htouch : ∀ (k : Nat) (Q : List Word → Prop), k < 2 → Q [Int64.ofNat k] →
      iota.Touches ⟨"dst", .f32, [.int 2], .dram⟩ Q := fun k Q hk hQ =>
    .inl ⟨2, rfl, k, hk, .inl ⟨[.var "i"], [Int64.ofNat k], .head _, rfl, hQ⟩⟩
  refine ⟨htouch 0 _ (by decide) trivial, fun j n hn => ?_⟩
  cases j with
  | zero =>
    cases hn
    exact ⟨htouch 0 _ (by decide) ⟨0, rfl, rfl⟩, htouch 1 _ (by decide) ⟨1, rfl, rfl⟩⟩
  | succ j => cases hn

theorem numberedRows_windows :
    let c : Catalog := ⟨[iota]⟩
    let args : Args ℚ := ⟨[], [("D", ⟨.f32, [2, 3], Array.replicate 6 0⟩)]⟩
    let out : Proc := { numberedRows with body := [.loop ⟨"r", .int 2, .seq⟩
      [.call "iota" [⟨"D", [.point (.var "r"), .interval (.int 1) (.int 3)]⟩]]] }
    numberedRows.replace c "iota" "for k in _:_" = .ok out ∧ (numberedRows.run c args).1 = .ok () ∧
      ∃ path call, numberedRows.pickStmt "for k in _:_" = .ok path ∧
        numberedRows.matchAt iota path = .ok call ∧ out.stmt? path = some call ∧
        ∀ env st, out.Reaches c args path env st → ∀ w ∈ call.windows,
          ∃ v, Gives (Evaluator.wide.MissesIn env w.exprs) (env.window w) v := by
  intro c args out
  have hreplace : numberedRows.replace c "iota" "for k in _:_" = .ok out := by cbv
  have hrun : (numberedRows.run c args).1 = .ok () := rfl
  have hreg : Catalog.register {} iota = .ok c := rfl
  have hvalid : numberedRows.problems (some c.find?) = [] := rfl
  exact ⟨hreplace, hrun,
    Proc.windows_of_replace hreg rfl iota_staysInside iota_fills hvalid hreplace hrun⟩

/-- A template that clears the first half of its parameter. -/
def clearHalf : Proc where
  name := "clear_half"
  params := [.buffer ⟨"dst", .f32, [.int 8], .dram⟩]
  body := [.loop ⟨"i", .int 4, .seq⟩ [.store .set "dst" [.var "i"] (.int 0)]]
  instr := some "clear_half"

/-- Clear a buffer of that size. -/
def zeroFour : Proc where
  name := "zero_four"
  params := [.buffer ⟨"D", .f32, [.int 4], .dram⟩]
  body := [.loop ⟨"k", .int 4, .seq⟩ [.store .set "D" [.var "k"] (.int 0)]]

theorem clearHalf_outside :
    let c : Catalog := ⟨[clearHalf]⟩
    let args : Args ℚ := ⟨[], [("D", ⟨.f32, [4], #[1, 2, 3, 4]⟩)]⟩
    let out : Proc := { zeroFour with
      body := [.call "clear_half" [⟨"D", [.interval (.int 0) (.int 8)]⟩]] }
    Catalog.register {} clearHalf = .ok c ∧ clearHalf.StaysInside ∧
      zeroFour.problems (some c.find?) = [] ∧
      zeroFour.replace c "clear_half" "for k in _:_" = .ok out ∧
      (zeroFour.run c args).1 = .ok () ∧
      (out.run c args).1 = .error (.error (.intervalOutside "D" 0 8)) := by
  intro c args out
  refine ⟨rfl, ⟨fun n hn k hk => ⟨fun d hd idx hidx ns hns => ?_, trivial⟩, trivial⟩, rfl,
    by cbv, rfl, rfl⟩
  cases hn
  obtain rfl := List.mem_singleton.1 hd
  obtain rfl := (Prod.mk.inj (List.mem_singleton.1 hidx)).2
  cases hns
  have height : (8 : Word).toInt = 8 := rfl
  have hlt : k < 4 := hk
  refine .cons ⟨8, rfl, ?_⟩ .nil
  rw [Word.toInt_ofNat hk, height]
  omega

end LoopNest
