import LoopNest.Proofs.Fresh
import LoopNest.Proofs.Matching.Lockstep
import LoopNest.Proofs.Reached
import LoopNest.Proofs.Templates

/-!
# A matched call means the code it stands for

`Proc.exec_matched`: in every state that the run of a valid kernel comes to at a matched statement,
the call and the run of statements that it stands for end alike and leave the same store.

The match compares a variable of the template with an index expression by its affine form, and the
affine form of `1 / 2` is 0. Where such an expression is data the code computes one half. The
statement therefore asks that no quotient in it is cut off, and `halves_differ` is a kernel where one
is.
-/

namespace LoopNest

open Exec

/-! ## The matched statements -/

namespace Proc

/-- The statements from a path on, `count` of them. -/
def statementsAt (p : Proc) (path : Path) (count : Nat) : Block :=
  (((p.container? path).getD []).drop path.position).take count

theorem of_matchAt {p t : Proc} {path : Path} {call : Stmt} (h : p.matchAt t path = .ok call) :
    ∃ b m args, p.container? path = some b ∧ t.body.length ≤ (b.drop path.position).length ∧
      Matching.stmts t [] {} t.body (b.drop path.position) = .ok m ∧
      List.Forall₂ (fun d w => m.window p path d = .ok w) t.bufferParams args ∧
      call = .call t.name args := by
  simp only [matchAt] at h
  split at h
  · cases h
  next b hb =>
    split at h
    · obtain ⟨_, ⟨⟩, -⟩ := except_bind_eq_ok.1 h
    next hlen =>
      rw [except_bind_eq_ok] at h
      obtain ⟨m, hm, h⟩ := h
      rw [except_bind_eq_ok] at h
      obtain ⟨args, hargs, h⟩ := h
      cases h
      refine ⟨b, m, args, hb, ?_, hm, mapM_eq_ok hargs, rfl⟩
      rw [List.length_drop]
      omega

theorem params_eq_map {params : List Param} (h : ∀ q ∈ params, ∃ d, q = .buffer d) :
    params = (params.filterMap (·.decl?)).map .buffer := by
  induction params with
  | nil => rfl
  | cons q params ih =>
    obtain ⟨⟨d, rfl⟩, hrest⟩ := List.forall_mem_cons.1 h
    rw [List.filterMap_cons_some (show (Param.buffer d).decl? = some d from rfl), List.map_cons,
      ← ih hrest]

end Proc

/-! ## Entering with the windows of a match -/

namespace Matching

variable {c c' : Catalog} {t p : Proc} {path : Path} {env : Env} {m : Matching}
  {args : List Window}

/-- The environment of a template's body: its parameters stand for the windows of the match. -/
theorem enter_of_match (hreg : c.register t = .ok c')
    (hargs : List.Forall₂ (fun d w => m.window p path d = .ok w) t.bufferParams args)
    (hwindows : ∀ w ∈ args, ∃ v, env.window w = .ok v) :
    ∃ inner, t.params.length = args.length ∧ env.enter [] (t.params.zip args) = .ok inner ∧
      inner.Fits t.scope ∧ (∀ x, inner.value? x = none) ∧
      ∀ d ∈ t.bufferParams, Passed (fun x => m.sites.lookup x) inner env d := by
  obtain ⟨hbuffers, hvalid⟩ := Catalog.of_register hreg
  have hparams : t.params = t.bufferParams.map .buffer := Proc.params_eq_map hbuffers
  have hlen : t.params.length = args.length := by
    rw [hparams, List.length_map, hargs.length_eq]
  obtain ⟨inner, henter, hkept, hbound⟩ :=
    Env.enter_of_args hlen (Proc.nodup_params hvalid) hwindows
  have hlookup : ∀ x, inner.lookup x = none ∨ ∃ v, inner.lookup x = some (.buffer v) := by
    intro x
    by_cases hx : x ∈ t.params.map (·.name)
    · rw [← List.map_fst_zip hlen.le, List.map_map] at hx
      obtain ⟨pw, hpw, rfl⟩ := List.mem_map.1 hx
      obtain ⟨v, -, hv⟩ := hbound pw hpw
      exact .inr ⟨v, hv⟩
    · exact .inl (hkept x hx)
  refine ⟨inner, hlen, henter, ⟨fun v hv => ?_, fun x hx => ?_⟩, fun x => ?_, fun d hd => ?_⟩
  · rw [Proc.isIndex_scope hbuffers] at hv
    cases hv
  · rw [t.isVisible_scope]
    by_contra hnot
    rw [hkept x hnot] at hx
    cases hx
  · obtain hnone | ⟨v, hv⟩ := hlookup x
    · rw [Env.value?, hnone]
    · rw [Env.value?, hv]
  · -- the window that is passed for `d` is the one of its site
    obtain ⟨w, hw⟩ : ∃ w, (d, w) ∈ t.bufferParams.zip args := by
      rw [← List.map_fst_zip hargs.length_eq.le] at hd
      obtain ⟨⟨_, w⟩, hmem, rfl⟩ := List.mem_map.1 hd
      exact ⟨w, hmem⟩
    have hpw : (Param.buffer d, w) ∈ t.params.zip args := by
      rw [hparams, List.zip_map_left]
      exact List.mem_map.2 ⟨(d, w), hw, rfl⟩
    obtain ⟨v, hv, hview⟩ := hbound _ hpw
    obtain ⟨site, intervals, hsite, rfl, hintervals⟩ := of_window ((List.forall₂_iff_zip.1 hargs).2 hw)
    exact .intro hsite hintervals hv (Env.view?_eq_some.2 hview)

end Matching

/-! ## Exact arithmetic -/

/-- Rational numbers, of which buffers keep every digit. -/
instance : Element ℚ where
  ofWord n := n.toInt
  ofFloat := Float.toRat0
  add x y := x + y
  sub x y := x - y
  mul x y := x * y
  div x y := x / y
  mod x y := x - |y| * ⌊x / |y|⌋
  neg x := -x
  round _ x := x
  undefined := 0

theorem Expr.exact_rat (env : Env) (e : Expr) : e.Exact (Int.cast : Int → ℚ) env := by
  induction e with
  | var v | int n | float x | read b idx => trivial
  | binary op l r ihl ihr =>
    refine ⟨ihl, ihr, fun x y z _ _ hz heven => ?_⟩
    cases op with
    | add =>
      cases hz
      simp [Op.onElements?, Element.add]
    | sub =>
      cases hz
      simp [Op.onElements?, Element.sub]
    | mul =>
      cases hz
      simp [Op.onElements?, Element.mul]
    | div =>
      obtain ⟨hy, rfl, -⟩ := Op.quotient?_eq_some.1 hz
      have hcast : ((x / y : Int) : ℚ) = x / y := Int.cast_div (heven rfl) (Int.cast_ne_zero.2 hy)
      exact congrArg some hcast.symm
    | mod =>
      obtain ⟨q, hq, rfl⟩ := Option.map_eq_some_iff.1 hz
      have hfloor : ⌊(x : ℚ) / |(y : ℚ)|⌋ = x / |y| := by
        rw [← Int.cast_abs, Int.abs_eq_natAbs, Int.cast_natCast]
        exact Rat.floor_intCast_div_natCast x y.natAbs
      have hmod : x % y = x - |y| * (x / |y|) := by
        rw [← Int.emod_abs, Int.emod_def]
      rw [Op.onElements?, hmod]
      simp [Element.mod, hfloor]
    | _ => cases hz
  | neg e ih => exact ⟨ih, fun x _ => by simp [Element.neg]⟩

/-! ## The result -/

theorem Block.exec_eq_inScope {α : Type} [Element α] (c : Catalog) (depth : Nat) :
    ∃ callee : Env → Block → Exec α Unit, ∀ env b,
      Block.exec c depth env b = inScope (Stmt.execAll c callee env b) := by
  cases depth with
  | zero | succ depth => exact ⟨_, fun _ _ => rfl⟩

theorem Stmt.execAll_call {α : Type} [Element α] {c : Catalog} {t : Proc} {env inner : Env}
    {args : List Window} (callee : Env → Block → Exec α Unit) (hfind : c.find? t.name = some t)
    (hlen : t.params.length = args.length) (henter : env.enter [] (t.params.zip args) = .ok inner) :
    Stmt.execAll c callee env [.call t.name args] = callee inner t.body := by
  have hcall : c.enter env t.name args = .ok (inner, t.body) :=
    Catalog.enter_eq_ok.2 ⟨t, hfind, hlen, henter, rfl⟩
  have heval : (eval (.ok (inner, t.body)) : Exec α (Env × Block)) = pure (inner, t.body) := rfl
  rw [Stmt.execAll, Stmt.exec, hcall, heval, pure_bind, bind_assoc]
  simp only [pure_bind, Stmt.execAll]
  exact bind_pure _

/-- **A matched call means the code it stands for.** In every state that the run of a valid kernel
comes to at the matched statement, and in which all windows of the call can be taken, the call and
the statements that it stands for end in the same way and leave the same store. The template is
registered and stays inside the shapes of its parameters, neither side has a negative zero or
overflows, and the code expressions that stand for variables of the template in data are exact and
cut off no quotient. -/
theorem Proc.exec_matched {α : Type} [Element α] {embed : Int → α} {c₀ c₁ c : Catalog} {t p : Proc}
    {templates : Scope.Templates} {args : Args α} {path : Path} {call : Stmt} {env : Env}
    {st : Store α} (hreg : c₀.register t = .ok c₁) (hinside : t.StaysInside)
    (hvalid : p.problems templates = []) (hmatch : p.matchAt t path = .ok call)
    (hfind : c.find? t.name = some t) (hreach : p.Reaches c args path env st)
    (hwindows : ∀ w ∈ call.windows, ∃ v, env.window w = .ok v)
    (hoverflow : ((Stmt.execAll c c.callee env [call]).run.run st).1 ≠ .error .overflow)
    (hoverflow' : ((Stmt.execAll c c.callee env (p.statementsAt path t.body.length)).run.run st).1 ≠
      .error .overflow)
    (hzero : ∀ x ∈ t.body.floats ++ (p.statementsAt path t.body.length).floats, x ≠ -0)
    (hembed : ∀ n : Word, embed n.toInt = Element.ofWord n)
    (hexact : Stmt.AlongAll (fun env s s' => ∀ e ∈ s.standIns s', e.Exact embed env) env t.body
      (p.statementsAt path t.body.length))
    (heven : Stmt.AlongAll (fun env s s' => ∀ e ∈ s.standIns s', e.DividesEvenly env) env t.body
      (p.statementsAt path t.body.length)) :
    Alike (fun _ _ => True) ((Stmt.execAll c c.callee env [call]).run.run st).1
        ((Stmt.execAll c c.callee env (p.statementsAt path t.body.length)).run.run st).1 ∧
      ((Stmt.execAll c c.callee env [call]).run.run st).2 =
        ((Stmt.execAll c c.callee env (p.statementsAt path t.body.length)).run.run st).2 := by
  obtain ⟨b, m, args, hb, hlen, hstmts, hargs, rfl⟩ := Proc.of_matchAt hmatch
  obtain ⟨hbuffers, hproblems⟩ := Catalog.of_register hreg
  obtain ⟨inner, hcount, henter, hinner, hvalues, hpassed⟩ :=
    Matching.enter_of_match hreg hargs hwindows
  -- the code that is matched, and its scope
  obtain ⟨sc, seen, rest, hfrom, hscoped, hfits, htidy⟩ := hreach.fits hvalid
  have hpath : path ≠ [] := by
    obtain ⟨frame, -, hreach⟩ := hreach
    exact hreach.path_ne_nil
  rw [Proc.from?_of_container? hpath hb] at hfrom
  cases hfrom
  have hcode : p.statementsAt path t.body.length = (b.drop path.position).take t.body.length := by
    rw [Proc.statementsAt, hb]
    rfl
  have hcodeScoped : Stmt.WellScopedAll templates sc (p.statementsAt path t.body.length) := by
    rw [← List.take_append_drop t.body.length (b.drop path.position)] at hscoped
    exact hcode ▸ hscoped.append_left
  have haligned := (Matching.stmts_aligned hlen (by simp) hstmts).aligned
    (fun x => m.sites.lookup x) fun _ _ h => h
  rw [← hcode] at haligned
  have hside : Matching.SideBySide t templates embed (fun x => m.sites.lookup x) inner env [] t.scope
      sc inner env t.body (p.statementsAt path t.body.length) := by
    refine ⟨haligned, ⟨hinner, hfits, fun v hv => ?_, fun _ _ => rfl, fun _ => rfl, fun _ => rfl⟩,
      rfl, Proc.wellScoped hproblems, hcodeScoped, ?_, hexact, heven, hzero⟩
    · rw [Proc.isIndex_scope hbuffers] at hv
      cases hv
    · have hnone : ∀ v, Env.value? [] v = inner.value? v := fun v => (hvalues v).symm
      exact Stmt.AlongAll.congr (P := fun env s _ => t.Inside env s)
        (fun henv h => h.congr henv) hnone hinside
  obtain ⟨callee, hcallee⟩ := Block.exec_eq_inScope (α := α) c (c.callDepth - 1)
  have hcall : Stmt.execAll c c.callee env [.call t.name args] =
      inScope (Stmt.execAll c callee inner t.body) :=
    (Stmt.execAll_call c.callee hfind hcount henter).trans (hcallee inner t.body)
  have hstep : InStep (fun _ _ => True) (Stmt.execAll c c.callee env [.call t.name args])
      (Stmt.execAll c c.callee env (p.statementsAt path t.body.length)) st := by
    rw [hcall]
    exact (hside.execAll_inStep hembed htidy.plain.whole hpassed st).inScope_left
  obtain ⟨halike, hstores, -⟩ | ho | ho := hstep
  · exact ⟨halike, hstores⟩
  · exact absurd ho hoverflow
  · exact absurd ho hoverflow'

/-- A template that writes the numbers 0 and 1. -/
def iota : Proc where
  name := "iota"
  params := [.buffer ⟨"dst", .f32, [.int 2], .dram⟩]
  body := [.loop ⟨"i", .int 2, .seq⟩ [.store .set "dst" [.var "i"] (.var "i")]]
  instr := some "iota"

theorem iota_staysInside : iota.StaysInside := by
  refine ⟨fun n hn k hk => ⟨fun d hd idx hidx ns hns => ?_, trivial⟩, trivial⟩
  cases hn
  obtain rfl := List.mem_singleton.1 hd
  obtain rfl := (Prod.mk.inj (List.mem_singleton.1 hidx)).2
  cases hns
  have htwo : (2 : Word).toInt = 2 := rfl
  have hlt : k < 2 := hk
  refine .cons ⟨2, rfl, ?_⟩ .nil
  rw [Word.toInt_ofNat hk, htwo]
  omega

/-- The numbers 0 and 1 in every row of a matrix, in a roundabout way. -/
def numberedRows : Proc where
  name := "numbered_rows"
  params := [.buffer ⟨"D", .f32, [.int 2, .int 3], .dram⟩]
  body := [.loop ⟨"r", .int 2, .seq⟩ [.loop ⟨"k", .int 2, .seq⟩
    [.store .set "D" [.var "r", .add (.var "k") (.int 1)]
      (.sub (.add (.var "k") (.div (.int 4) (.int 2))) (.int 2))]]]

theorem numberedRows_matched :
    let c : Catalog := ⟨[iota]⟩
    let args : Args ℚ := ⟨[], [("D", ⟨.f32, [2, 3], Array.replicate 6 0⟩)]⟩
    let call : Stmt := .call "iota" [⟨"D", [.point (.var "r"), .interval (.int 1) (.int 3)]⟩]
    let code := numberedRows.statementsAt [0, 0] 1
    numberedRows.matchAt iota [0, 0] = .ok call ∧
      ∃ env st, numberedRows.Reaches c args [0, 0] env st ∧ env.value? "r" = some 1 ∧
        Alike (fun _ _ => True) ((Stmt.execAll c c.callee env [call]).run.run st).1
          ((Stmt.execAll c c.callee env code).run.run st).1 ∧
        ((Stmt.execAll c c.callee env [call]).run.run st).2 =
          ((Stmt.execAll c c.callee env code).run.run st).2 := by
  intro c args call code
  have hreg : Catalog.register {} iota = .ok c := rfl
  have hvalid : numberedRows.problems (some c.find?) = [] := rfl
  have hmatch : numberedRows.matchAt iota [0, 0] = .ok call := rfl
  -- the second row, after the first one is done
  let outer : Env := [("D", .buffer (.whole 0 "D" [2, 3]))]
  let env : Env := outer.bind "r" (.index 1)
  let first := (countUp (Stmt.round c c.callee outer ⟨"r", .int 2, .seq⟩ code) 1 0).run.run
    [(⟨.f32, [2, 3], Array.replicate 6 0⟩ : Tensor ℚ)]
  have hfirst : first = (.ok (), first.2) := Prod.ext rfl rfl
  have hreach : numberedRows.Reaches c args [0, 0] env first.2 :=
    ⟨⟨outer, _, ["D"]⟩, rfl, .loop (n := 2) (k := 1) rfl (by decide) hfirst .here⟩
  have hok : ((Stmt.execAll c c.callee env [call]).run.run first.2).1 = .ok () := rfl
  have hok' : ((Stmt.execAll c c.callee env code).run.run first.2).1 = .ok () := rfl
  refine ⟨hmatch, env, first.2, hreach, rfl, ?_⟩
  refine Proc.exec_matched hreg iota_staysInside hvalid hmatch rfl hreach ?_ ?_ ?_ ?_
    (fun _ => rfl) ⟨fun n hn k hk => ⟨fun e _ => e.exact_rat _, trivial⟩, trivial⟩
    ⟨fun n hn k hk => ⟨fun e he => ?_, trivial⟩, trivial⟩
  · intro w hw
    obtain rfl := List.mem_singleton.1 hw
    exact ⟨_, rfl⟩
  · intro ho
    cases hok.symm.trans ho
  · intro ho
    cases hok'.symm.trans ho
  · exact nofun
  · obtain rfl := List.mem_singleton.1 he
    refine ⟨⟨trivial, ⟨trivial, trivial, fun _ x y hx hy => ?_⟩, nofun⟩, trivial, nofun⟩
    cases hx
    cases hy
    decide

/-- One half more than the numbers 0 and 1. -/
def halves : Proc where
  name := "halves"
  params := [.buffer ⟨"D", .f32, [.int 2], .dram⟩]
  body := [.loop ⟨"k", .int 2, .seq⟩
    [.store .set "D" [.var "k"] (.add (.var "k") (.div (.int 1) (.int 2)))]]

/-- The template matches, and all that is asked for holds but that quotients are not cut off. Yet the
call writes other numbers than the code. -/
theorem halves_differ :
    let c : Catalog := ⟨[iota]⟩
    let D : Tensor ℚ := ⟨.f32, [2], #[0, 0]⟩
    let env : Env := [("D", .buffer (.whole 0 "D" [2]))]
    let call : Stmt := .call "iota" [⟨"D", [.interval (.int 0) (.int 2)]⟩]
    let code := halves.statementsAt [0] 1
    Catalog.register {} iota = .ok c ∧ iota.StaysInside ∧ halves.problems (some c.find?) = [] ∧
      halves.matchAt iota [0] = .ok call ∧ halves.Reaches c ⟨[], [("D", D)]⟩ [0] env [D] ∧
      (∀ w ∈ call.windows, ∃ v, env.window w = .ok v) ∧ iota.body.floats ++ code.floats = [] ∧
      Stmt.AlongAll (fun env s s' => ∀ e ∈ s.standIns s', e.Exact (Int.cast : Int → ℚ) env) env
        iota.body code ∧
      (Stmt.execAll c c.callee env [call]).run.run [D] = (.ok (), [⟨.f32, [2], #[0, 1]⟩]) ∧
      (Stmt.execAll c c.callee env code).run.run [D] =
        (.ok (), [⟨.f32, [2], #[1 / 2, 3 / 2]⟩]) := by
  intro c D env call code
  refine ⟨rfl, iota_staysInside, rfl, rfl, ⟨⟨env, [D], ["D"]⟩, rfl, .here⟩, fun w hw => ?_, rfl,
    ⟨fun n hn k hk => ⟨fun e _ => e.exact_rat _, trivial⟩, trivial⟩, ?_, ?_⟩
  · obtain rfl := List.mem_singleton.1 hw
    exact ⟨_, rfl⟩
  · have hcall : (Stmt.execAll c c.callee env [call]).run.run [D] =
        (.ok (), [⟨.f32, [2], #[((0 : Int) : ℚ), ((1 : Int) : ℚ)]⟩]) := rfl
    simpa using hcall
  · have hcode : (Stmt.execAll c c.callee env code).run.run [D] =
        (.ok (), [⟨.f32, [2], #[((0 : Int) : ℚ) + ((1 : Int) : ℚ) / ((2 : Int) : ℚ),
          ((1 : Int) : ℚ) + ((1 : Int) : ℚ) / ((2 : Int) : ℚ)]⟩]) := rfl
    rw [hcode]
    norm_num

end LoopNest
