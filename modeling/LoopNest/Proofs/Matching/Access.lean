import LoopNest.Proofs.Context
import LoopNest.Proofs.Matching.Index

/-!
# Accesses of aligned code

An access to a template parameter means an element of the window that is passed for it. The access
in the code that is aligned with it means the same element of the buffer, so both read the same value
(`Relates.load_agrees`) and write to the same place (`Relates.locate_agrees`).
-/

namespace LoopNest

open Evaluator

variable {ts ks : List Word} {p : String}

/-! ## Lists of indices -/

namespace Env

variable {env : Env}

theorem indices_or_overflow {es : List Expr}
    (h : ∀ e ∈ es, (∃ n, env.index e = .ok n) ∨ env.index e = .error .overflow) :
    (∃ ns, env.indices es = .ok ns) ∨ env.indices es = .error .overflow := by
  induction es with
  | nil => exact .inl ⟨[], rfl⟩
  | cons e es ih =>
    rw [indices]
    obtain ⟨n, hn⟩ | ho := h e (.head _)
    · obtain ⟨ns, hns⟩ | ho := ih fun e he => h e (.tail _ he)
      · exact .inl ⟨n :: ns, by rw [hn, hns]; rfl⟩
      · exact .inr (by rw [hn, ho]; rfl)
    · exact .inr (by rw [ho]; rfl)

abbrev IndexValues (env : Env) : List Expr → List Word → Prop :=
  List.Forall₂ fun e n => env.index e = .ok n

end Env

namespace Matching

/-! ## Windows -/

/-- The index `ts` of a window is the index `ks` of the buffer that the window is cut from. -/
inductive Lies : List Cut → (ts ks : List Word) → Prop
  | nil : Lies [] [] []
  | point {p : Word} {cuts : List Cut} {ts ks : List Word} :
    Lies cuts ts ks → Lies (.point p :: cuts) ts (p :: ks)
  | range {lo hi t k : Word} {cuts : List Cut} {ts ks : List Word} :
    0 ≤ t.toInt → t.toInt < hi.toInt - lo.toInt → k.toInt = lo.toInt + t.toInt →
    Lies cuts ts ks → Lies (.range lo hi :: cuts) (t :: ts) (k :: ks)

/-- In a window of a whole tensor, and in the tensor itself, these are the same coordinates. -/
theorem Lies.finds {cuts : List Cut} {dims dims' : List ViewDim} (h : Lies cuts ts ks)
    (hwhole : ViewDim.Whole dims) (hcut : View.Narrows dims cuts dims') :
    View.Finds dims' ts ks ∧ View.Finds dims ks ks := by
  induction hcut generalizing ts ks with
  | nil =>
    cases h
    exact ⟨.nil, .nil⟩
  | fixed c _ _ =>
    obtain ⟨⟨_, hd⟩, -⟩ := List.forall_mem_cons.1 hwhole
    cases hd
  | @point _ _ p c _ _ _ hlo hhi hc _ ih =>
    obtain ⟨⟨_, hd⟩, hrest⟩ := List.forall_mem_cons.1 hwhole
    cases hd
    cases h with
    | point h =>
      obtain rfl : c = p := Int64.toInt_inj.1 (hc.trans (Int.zero_add _))
      exact ⟨.fixed c (ih h hrest).1, .free hlo hhi hc (ih h hrest).2⟩
  | range hlo _ hhi hstart hcount _ ih =>
    obtain ⟨⟨_, hd⟩, hrest⟩ := List.forall_mem_cons.1 hwhole
    cases hd
    cases h with
    | range ht hlt hk h =>
      rw [Int64.toInt_zero] at hstart
      exact ⟨.free ht (by omega) (by omega) (ih h hrest).1,
        .free (by omega) (by omega) (by simp) (ih h hrest).2⟩

/-! ## Where an access lies -/

/-- How the parameter `d` is passed: the window of its site, with intervals of the declared
extents. -/
inductive Passed (sites : String → Option Site) (inner outer : Env) (d : Decl) : Prop
  | intro {site : Site} {intervals : List WindowDim} {v : View} : sites d.name = some site →
    Intervals site.offsets d.shape intervals →
    outer.window ⟨site.buf, site.lead.map .point ++ intervals⟩ = .ok v →
    inner.view? d.name = some v → Passed sites inner outer d

/-- The indices are within the extents of a shape. -/
def Within (shape : List Expr) (ns : List Word) : Prop :=
  List.Forall₂ (fun n extent => ∃ m, extent.int? = some m ∧ 0 ≤ n.toInt ∧ n.toInt < m.toInt)
    ns shape

namespace Relates

variable {sites : String → Option Site} {ρ : Renaming} {inner outer tenv cenv : Env}
  {tsc csc : Scope}

/-- One trailing index: the code's is the start of the interval plus the template's. -/
theorem lies_range (h : Relates ρ inner outer tsc csc tenv cenv) {t c : Expr} {o lo hi : Affine}
    {n l u τ κ : Word} (ht : tsc.checkIndex t = []) (hc : csc.checkIndex c = [])
    (hsame : o.same lo = true) (hlo : Follows ρ lo t c) (hhi : o.addConstant? n = some hi)
    (hl : outer.index o.toExpr = .ok l) (hu : outer.index hi.toExpr = .ok u)
    (hτ : tenv.index t = .ok τ) (hκ : cenv.index c = .ok κ) :
    κ.toInt = l.toInt + τ.toInt ∧ u.toInt - l.toInt = n.toInt := by
  have hstart := Affine.value_of_toExpr (Env.wide?_of_index hl)
  have hend := Affine.value_of_toExpr (Env.wide?_of_index hu)
  rw [(Affine.addConstant?_eq_some hhi).2, hstart] at hend
  rw [Affine.value_of_same hsame] at hstart
  obtain ⟨z, hz, hcode⟩ := h.wide?_of_follows ht hc hlo
  rw [Env.wide?_of_index hτ, Option.some.injEq] at hz
  rw [Env.wide?_of_index hκ, Option.some.injEq, hstart, ← hz] at hcode
  exact ⟨hcode, by omega⟩

variable {tidx tail cidx : List Expr} {intervals : List WindowDim} {cuts : List Cut} {b : String}

section

variable (h : Relates ρ inner outer tsc csc tenv cenv)
include h

theorem lies_ranges {shape : List Expr}
    {offsets : List Affine} (ht : ∀ e ∈ tidx, tsc.checkIndex e = [])
    (hc : ∀ e ∈ tail, csc.checkIndex e = []) (hlen : tidx.length = tail.length)
    (hfollow : List.Forall₂ (fun offset tc => ∃ lo, offset.same lo = true ∧ Follows ρ lo tc.1 tc.2)
      offsets (tidx.zip tail))
    (hintervals : Intervals offsets shape intervals)
    (hcuts : List.Forall₂ (fun d cut => checked.cut outer d = some cut) intervals cuts)
    (hts : tenv.IndexValues tidx ts)
    (hks : cenv.IndexValues tail ks) (hin : Within shape ts) : Lies cuts ts ks := by
  induction tidx generalizing tail shape offsets intervals cuts ts ks with
  | nil =>
    obtain rfl := List.length_eq_zero_iff.1 hlen.symm
    cases hts
    cases hks
    cases hfollow
    cases hintervals
    cases hcuts
    exact .nil
  | cons t tidx ih =>
    obtain _ | ⟨c, tail⟩ := tail
    · cases hlen
    obtain _ | ⟨hτ, hts⟩ := hts
    obtain _ | ⟨hκ, hks⟩ := hks
    obtain _ | ⟨⟨m, hm, hτ0, hτm⟩, hin⟩ := hin
    obtain _ | ⟨⟨lo, hsame, hlo⟩, hfollow⟩ := hfollow
    obtain _ | ⟨⟨n, hi, hn, hhi, rfl⟩, hintervals⟩ := hintervals
    obtain _ | ⟨hcut, hcuts⟩ := hcuts
    obtain ⟨l, u, hl, hu, rfl⟩ := cut_interval.1 hcut
    rw [checked_eval] at hl hu
    obtain rfl := Option.mem_unique hm hn
    rw [List.forall_mem_cons] at ht hc
    obtain ⟨hk, hextent⟩ := h.lies_range ht.1 hc.1 hsame hlo hhi hl hu hτ hκ
    exact .range hτ0 (by omega) hk
      (ih ht.2 hc.2 (Nat.succ.inj hlen) hfollow hintervals hcuts hts hks hin)

/-- The leading indices are the points of the window. -/
theorem lies_points {points lead : List Expr} (hc : ∀ e ∈ lead, csc.checkIndex e = [])
    (hfixed : ∀ e ∈ lead, ∀ v ∈ ρ.map (·.2), e.mentions v = false)
    (hlead : List.Forall₂ (fun e e' => e = e' ∨ e.sameIndex e' = true) points lead)
    (hcuts : List.Forall₂ (fun d cut => checked.cut outer d = some cut)
      (points.map .point ++ intervals) cuts)
    (hks : cenv.IndexValues (lead ++ tail) ks) (hranges : ∀ cuts ks,
      List.Forall₂ (fun d cut => checked.cut outer d = some cut) intervals cuts →
      cenv.IndexValues tail ks → Lies cuts ts ks) :
    Lies cuts ts ks := by
  induction hlead generalizing cuts ks with
  | nil => exact hranges cuts ks hcuts hks
  | cons hsame _ ih =>
    obtain _ | ⟨hcut, hcuts⟩ := hcuts
    obtain _ | ⟨hk, hks⟩ := hks
    obtain ⟨p, hp, rfl⟩ := cut_point.1 hcut
    rw [checked_eval] at hp
    rw [List.forall_mem_cons] at hc hfixed
    obtain hpoint | ho := h.index_of_point hp hsame hfixed.1 hc.1
    · rw [hk, Except.ok.injEq] at hpoint
      rw [hpoint]
      exact .point (ih hc.2 hfixed.2 hcuts hks)
    · rw [hk] at ho
      cases ho

/-- All indices of an aligned access have values, unless they overflow. -/
theorem indices_or_overflow {site : Site}
    {lead : List Expr} (ht : ∀ e ∈ tidx, tsc.checkIndex e = [])
    (hc : ∀ e ∈ lead ++ tail, csc.checkIndex e = []) (hlen : tidx.length = tail.length)
    (hcuts : List.Forall₂ (fun d cut => checked.cut outer d = some cut)
      (site.lead.map .point ++ intervals) cuts)
    (hlead : List.Forall₂ (fun e e' => e = e' ∨ e.sameIndex e' = true) site.lead lead)
    (hfixed : ∀ e ∈ lead, ∀ v ∈ ρ.map (·.2), e.mentions v = false)
    (hfollow : List.Forall₂ (fun offset tc => ∃ lo, offset.same lo = true ∧ Follows ρ lo tc.1 tc.2)
      site.offsets (tidx.zip tail)) :
    ((∃ ts, tenv.indices tidx = .ok ts) ∨ tenv.indices tidx = .error .overflow) ∧
      ((∃ ks, cenv.indices (lead ++ tail) = .ok ks) ∨
        cenv.indices (lead ++ tail) = .error .overflow) := by
  have hvalue : ∀ {env : Env} {e : Expr} {z : Int}, env.wide? e = some z →
      (∃ n, env.index e = .ok n) ∨ env.index e = .error .overflow := fun hz =>
    (Env.index_of_wide? hz).imp_left fun ⟨n, _, hn⟩ => ⟨n, hn⟩
  refine ⟨Env.indices_or_overflow fun t htidx => ?_, Env.indices_or_overflow fun c hcidx => ?_⟩
  · obtain ⟨⟨_, c⟩, hzip, rfl⟩ : ∃ tc ∈ tidx.zip tail, tc.1 = t := by
      rw [← List.map_fst_zip hlen.le] at htidx
      exact List.mem_map.1 htidx
    obtain ⟨_, _, lo, -, hlo⟩ := exists_of_forall₂ hfollow hzip
    obtain ⟨z, hz, -⟩ := h.wide?_of_follows (ht _ htidx)
      (hc c (List.mem_append_right _ (List.of_mem_zip hzip).2)) hlo
    exact hvalue hz
  · obtain hmem | hmem := List.mem_append.1 hcidx
    · obtain ⟨e, he, hsame⟩ := exists_of_forall₂ hlead hmem
      obtain ⟨_, -, hcut⟩ := exists_of_forall₂ hcuts.flip
        (List.mem_append_left _ (List.mem_map_of_mem he))
      obtain ⟨p, hp, -⟩ := cut_point.1 hcut
      rw [checked_eval] at hp
      exact (h.index_of_point hp hsame (hfixed c hmem) (hc c hcidx)).imp_left fun hk => ⟨p, hk⟩
    · obtain ⟨⟨t, _⟩, hzip, rfl⟩ : ∃ tc ∈ tidx.zip tail, tc.2 = c := by
        rw [← List.map_snd_zip hlen.ge] at hmem
        exact List.mem_map.1 hmem
      obtain ⟨_, _, lo, -, hlo⟩ := exists_of_forall₂ hfollow hzip
      obtain ⟨z, -, hz⟩ := h.wide?_of_follows (ht t (List.of_mem_zip hzip).1) (hc _ hcidx) hlo
      exact hvalue hz

/-- **Aligned accesses mean the same element.** -/
theorem address_agrees (hwhole : outer.ViewsWhole) {d : Decl}
    (hpassed : Passed sites inner outer d) (hal : AccessAligned sites ρ d.name tidx b cidx)
    (ht : ∀ e ∈ tidx, tsc.checkIndex e = []) (hc : ∀ e ∈ cidx, csc.checkIndex e = [])
    (hin : ∀ ns, tenv.indices tidx = .ok ns → Within d.shape ns) :
    Agrees (fun a a' => a.1.tensor = a'.1.tensor ∧ a.2 = a'.2) (tenv.address d.name tidx)
      (cenv.address b cidx) := by
  obtain ⟨hsite, hintervals, hwindow, hview⟩ := hpassed
  obtain ⟨hsite', hbuf, rfl, hlen, hlead, hfixed, hfollow⟩ := hal
  obtain rfl := Option.mem_unique hsite' hsite
  obtain ⟨base, cuts, dims, hbase, hcuts, hdims, rfl⟩ :=
    window_eq_some.1 ((checked.window_tallies _).eq_some hwindow)
  rw [cuts_eq_some] at hcuts
  have hinner := Env.view_eq_ok.2 ((h.templateView d.name).trans hview)
  have houter := Env.view_eq_ok.2 ((h.codeView b).trans (hbuf ▸ hbase))
  obtain ⟨htemplate, hcode⟩ := h.indices_or_overflow ht hc hlen hcuts hlead hfixed hfollow
  rw [Env.address, Env.address, hinner, houter]
  obtain ⟨ts, hts⟩ | ho := htemplate
  · obtain ⟨ks, hks⟩ | ho := hcode
    · have hlies : Lies cuts ts ks := by
        refine h.lies_points (fun e he => hc e (List.mem_append_left _ he)) hfixed hlead hcuts
          (Env.indices_eq_ok.1 hks) fun cuts ks hcuts hks => ?_
        exact h.lies_ranges ht (fun e he => hc e (List.mem_append_right _ he)) hlen hfollow
          hintervals hcuts (Env.indices_eq_ok.1 hts) hks (hin ts hts)
      obtain ⟨hto, hfrom⟩ := hlies.finds (hwhole _ _ hbase) hdims
      have hto := (View.coordinates_eq_ok (v := ⟨base.tensor, base.name, dims⟩)).2 hto
      have hfrom := View.coordinates_eq_ok.2 hfrom
      left
      simp only [Bind.bind, Except.bind, hts, hks, hto, hfrom]
      exact .ok ⟨rfl, rfl⟩
    · right
      right
      simp only [Bind.bind, Except.bind, ho]
  · right
    left
    simp only [Bind.bind, Except.bind, ho]

end

variable {α : Type} {st : Store α} (h : Agrees (fun a a' => a.1.tensor = a'.1.tensor ∧ a.2 = a'.2)
  (tenv.address p tidx) (cenv.address b cidx))
include h

theorem load_agrees : Agrees Eq (st.load tenv p tidx) (st.load cenv b cidx) := by
  refine h.bind fun ⟨v, ks⟩ ⟨v', ks'⟩ _ _ ⟨htensor, hks⟩ => ?_
  simp only at htensor hks ⊢
  rw [htensor, hks]
  cases (st[v'.tensor]?).bind (·.get? ks') with
  | none => exact .fail rfl
  | some a => exact .ok rfl

theorem locate_agrees : Agrees Eq (st.locate tenv p tidx) (st.locate cenv b cidx) := by
  refine h.bind fun ⟨v, ks⟩ ⟨v', ks'⟩ _ _ ⟨htensor, hks⟩ => ?_
  simp only at htensor hks ⊢
  rw [htensor, hks]
  cases (st[v'.tensor]?).bind (·.offset? ks') with
  | none => exact .fail rfl
  | some offset => exact .ok rfl

end Relates

end Matching

end LoopNest
