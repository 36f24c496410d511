import LoopNest.Proofs.Contract.Motion
import LoopNest.Proofs.Paired
import LoopNest.Proofs.Trace.Lift

/-!
# Kernels with a lifted allocation

The lifted allocation stands before the outermost statement that it leaves. From there on a run has
one more tensor, and the statement fills it (`Stmt.paired_lifted`). So wherever there is room for
the tensor, the kernels are paired (`Proc.paired_liftAlloc`). If every loop that was left adds a
dimension, elements stay the same and so does the run (`Proc.run_liftAlloc_of_dims`). Without room it
may fail, even where the old kernel never allocates the tensor (`unreached_liftAlloc`).
-/

namespace LoopNest

open Exec Stmt Block

variable {path : Path} {t s : Stmt} {env : Env} {shape : List Nat}

/-! ## The statements around a path -/

/-- The statements that a path leads through, outermost first. -/
def Block.holders : Path → Block → List Stmt
  | i :: j :: path, b =>
    match b[i]? with
    | none => []
    | some s => s :: (s.body?.map (holders (j :: path))).getD []
  | _, _ => []

namespace Block

theorem holders_succ (i : Nat) (path : Path) (s : Stmt) (rest : Block) :
    holders ((i + 1) :: path) (s :: rest) = holders (i :: path) rest := by
  cases path with
  | nil => rfl
  | cons j path => simp only [holders, List.getElem?_cons_succ]

theorem holders_zero (hpath : path ≠ []) {body : Block}
    (hbody : s.body? = some body) (rest : Block) :
    holders (0 :: path) (s :: rest) = s :: holders path body := by
  cases path with
  | nil => exact absurd rfl hpath
  | cons j path => simp only [holders, List.getElem?_cons_zero, hbody, Option.map_some,
      Option.getD_some]

theorem Recast.length_holders {old new : Block} {b b' : Block} (h : Recast old new path b b') :
    (holders path b).length + 1 = path.length := by
  induction h with
  | here => rfl
  | @next i path t rest rest' _ ih => rw [holders_succ, ih, List.length_cons, List.length_cons]
  | @inside path t body body' rest hbody hrel ih =>
    rw [holders_zero hrel.path_ne_nil hbody, List.length_cons, List.length_cons, ih]

theorem holders_append {outer inner : Path} (hinner : inner ≠ []) {b body : Block}
    (hget : b.get? outer = some t) (hbody : t.body? = some body) :
    holders (outer ++ inner) b = holders outer b ++ t :: holders inner body := by
  induction outer generalizing b with
  | nil => cases hget
  | cons i outer ih =>
    cases outer with
    | nil =>
      obtain ⟨j, inner, rfl⟩ := List.exists_cons_of_ne_nil hinner
      replace hget : b[i]? = some t := hget
      simp only [List.cons_append, List.nil_append, holders, hget, hbody, Option.map_some,
        Option.getD_some]
    | cons j outer =>
      simp only [get?, option_bind_eq_some] at hget
      obtain ⟨s, hs, body', hbody', hget⟩ := hget
      have hrest := ih hget
      simp only [List.cons_append] at hrest ⊢
      simp only [holders, hs, hbody', Option.map_some, Option.getD_some, hrest, List.cons_append]

/-- What is dropped at a path is inside the loops that the path leads through. -/
theorem Recast.dropped {d : Decl} {back : Block} {b b' : Block}
    (h : Recast (.alloc d :: back) back path b b') :
    Dropped d ((holders path b).filterMap (·.header?)) b b' := by
  induction h with
  | here => exact .here
  | @next i path t rest rest' _ ih =>
    rw [holders_succ]
    exact .next ih
  | @inside path t body body' rest hbody hrel ih =>
    rw [holders_zero hrel.path_ne_nil hbody]
    cases t with
    | loop hd c =>
      cases hbody
      exact .loop ih
    | guard e c =>
      cases hbody
      exact .guard ih
    | _ => cases hbody

end Block

theorem Proc.ancestors_concat {p : Proc} {outer : Path} (ht : p.stmt? outer = some t) (i : Nat) :
    p.ancestors (outer ++ [i]) = (outer, t) :: p.ancestors outer := by
  obtain ⟨j, path, rfl⟩ : ∃ j path, outer = j :: path := by
    cases outer with
    | nil => cases ht
    | cons j path => exact ⟨j, path, rfl⟩
  unfold ancestors
  have hlen : (j :: path ++ [i]).length - 1 = path.length + 1 := by simp
  rw [hlen, List.range_succ_eq_map, List.filterMap_cons, List.filterMap_map]
  have hfirst : (j :: path ++ [i]).take (path.length + 1 - 0) = j :: path :=
    List.take_left' rfl
  simp only [hfirst, ht, Option.map_some]
  congr 1
  refine List.filterMap_congr fun k _ => ?_
  have htake : (j :: path ++ [i]).take (path.length + 1 - (k + 1)) =
      (j :: path).take ((j :: path).length - 1 - k) := by
    rw [List.take_append_of_le_length (by simp; omega), List.length_cons]
    congr 1
    omega
  simp only [Function.comp_apply, Nat.succ_eq_add_one, htake]

/-- The ancestors of a statement are the statements that its path leads through. -/
theorem Proc.ancestors_eq {p : Proc} (h : p.stmt? path = some s) :
    (p.ancestors path).map (·.2) = (p.body.holders path).reverse := by
  induction path using List.reverseRecOn generalizing s with
  | nil => cases h
  | append_singleton outer i ih =>
    by_cases houter : outer = []
    · subst houter
      rfl
    obtain ⟨_, _, _, hrel⟩ := replaced_of_get? [] h
    obtain ⟨t, body, -, hget, hbody, -⟩ := hrel.beneath rfl houter (by simp)
    rw [ancestors_concat hget, List.map_cons, ih hget,
      Block.holders_append (by simp) hget hbody, List.reverse_append]
    rfl

namespace Proc.LiftedAlloc

variable {p q : Proc} {alloc : String} {lifts : Nat} {keepDims : Bool}

/-- The statements that the allocation leaves are the outermost one and those inside it. -/
theorem lifted_eq (lift : p.LiftedAlloc alloc lifts keepDims q) :
    (p.lifted lift.path lifts).reverse =
      lift.outer :: lift.body.holders (lift.path.drop (lift.path.length - lifts)) := by
  have hget := stmt?_of_pickAlloc lift.picked
  obtain ⟨_, _, _, hrel⟩ := replaced_of_get? [] hget
  obtain ⟨_, hdropped⟩ := lift.dropped
  have hlen := hrel.length_holders
  have hinner := hdropped.length_holders
  have hdeep := lift.deep
  rw [← List.length_map (·.2), ancestors_eq hget, List.length_reverse] at hdeep
  rw [List.length_drop] at hinner
  have hsplit := Block.holders_append hdropped.path_ne_nil lift.found lift.holds
  rw [Path.lift, List.take_append_drop] at hsplit
  rw [lifted, List.map_take, ancestors_eq hget, List.take_reverse, List.reverse_reverse]
  rw [hsplit] at hlen ⊢
  rw [List.length_append, List.length_cons] at hlen ⊢
  exact List.drop_left' (by omega)

/-- The headers of the loops that the allocation leaves, outermost first. -/
def loops (lift : p.LiftedAlloc alloc lifts keepDims q) : List Header :=
  (p.lifted lift.path lifts).reverse.filterMap (·.header?)

/-- The outermost statement without the allocation. -/
theorem dropped_outer (lift : p.LiftedAlloc alloc lifts keepDims q) :
    Block.Dropped lift.d lift.loops [lift.outer] [lift.outer.withBody lift.inner] := by
  rw [loops, lifted_eq]
  obtain ⟨_, hdropped⟩ := lift.dropped
  replace hdropped := hdropped.dropped
  have hholds := lift.holds
  cases houter : lift.outer with
  | loop hd c =>
    rw [houter] at hholds
    cases hholds
    exact .loop hdropped
  | guard e c =>
    rw [houter] at hholds
    cases hholds
    exact .guard hdropped
  | _ =>
    rw [houter] at hholds
    cases hholds

end Proc.LiftedAlloc

/-! ## At the outermost statement -/

theorem Evaluator.extents_append {ev : Evaluator} {es es' : List Expr}
    (h : ev.extents env (es ++ es') = some shape) :
    ∃ exts exts', ev.extents env es = some exts ∧ ev.extents env es' = some exts' ∧
      shape = exts ++ exts' := by
  rw [extents_eq_some] at h
  refine ⟨shape.take es.length, shape.drop es.length, ?_, ?_, (List.take_append_drop _ _).symm⟩
  · exact extents_eq_some.2 (by simpa using List.forall₂_take es.length h)
  · exact extents_eq_some.2 (by simpa using List.forall₂_drop es.length h)

section outermost

variable {α β : Type} [Element α] [Element β] {R : α → β → Prop} {c : Catalog} {callee : Callee}

/-- **The outermost statement.** Where there is room for the larger tensor, the allocation and the
statement that uses part of it are paired with the statement. -/
theorem Stmt.paired_lifted (hR : Element.Related R) (hc : callee.Closed) (hcallee : callee.Seated)
    (keeps : Header → Bool) {d : Decl} {loops : List Header} {t' : Stmt}
    (hdrop : Block.Dropped d loops [t] [t'])
    (hshare : (∀ y, R Element.undefined y) ∨ ∀ h ∈ loops, keeps h = true) {seen : List String}
    {lay : Layout} (htidy : env.Tidy seen lay) (hfresh : t.Fresh seen)
    (hname : d.name ∉ binders [t']) {size : Nat}
    (hshape : Evaluator.checked.extents env (d.widened (loops.filter keeps)).shape = some shape)
    (hsize : Tensor.size? shape = some size) {acts : List Action}
    (ht : t.trace .checked c callee env lay = some (acts, env)) :
    ∃ acts' e' ρ, traceAll .checked c callee env lay
        [.alloc (d.widened (loops.filter keeps)),
          t'.map (·.prependHere d.name ((loops.filter keeps).map (.var ·.var)))] =
          some (acts', e') ∧
      PairedIn R env e' lay acts acts' ρ := by
  obtain ⟨exts, exts', hexts, hexts', rfl⟩ := Evaluator.extents_append hshape
  obtain rfl := Tensor.eq_prod_of_size? hsize
  let slot : Slot := ⟨d.ty, exts ++ exts', (exts ++ exts').prod⟩
  let env' := env.bind d.name (.buffer (.whole lay.length d.name (exts ++ exts')))
  have hunseen : d.name ∉ seen := fun hx =>
    (show FreshAll seen [t] from ⟨hfresh, trivial⟩).not_mem_binders hx hdrop.mem_binders
  have hnames : env.Seats (Seat.raised lay.length 1) [] env' :=
    .raised (fun _ => Env.lookup_bind_new (htidy.bound _ hunseen) _) htidy.plain.lt 1
  -- before the first loop all of the new tensor is awaited, and nothing sits in it
  have hstate : Awaits .checked lay.length d exts' [] 0 (loops.filter keeps) exts seen
      (Seat.raised lay.length 1) env env' lay (lay ++ [slot]) := {
    seats := .raised lay [slot]
    away := by
      rintro i o q hq
      rw [Seat.raised, Seat.lies_whole] at hq
      subst hq
      change (if i < lay.length then i else i + 1) ≠ lay.length
      split <;> omega
    slot := by simp [slot]
    view := by rw [Env.view?_bind, if_pos rfl]; rfl
    tidy := htidy
    names := ⟨hnames.value, fun _ => hnames.view (by simp)⟩
    indices := .nil
    offset := rfl
    extents := hexts
    inner := hexts' }
  obtain ⟨x, f, hx, hfills⟩ := hdrop.fills hR hc hcallee keeps hshare hstate ⟨hfresh, trivial⟩ hname
    rfl (traceAll_singleton.2 ht)
  rw [List.map_nil, List.nil_append, List.map_map] at hx
  have hdecl' : (t'.map (·.prependHere d.name ((loops.filter keeps).map (.var ·.var)))).decl? =
      none := by
    cases hdrop with
    | next h => cases h
    | loop h | guard h => rfl
  have hs' := traceAll_singleton.1 hx
  obtain ⟨hclose, rfl⟩ := (trace_grows hc hs').1 hdecl'
  refine ⟨.alloc d.ty (exts ++ exts') (exts ++ exts').prod :: x, env', Seat.raised lay.length 1,
    traceAll_cons.2 ⟨[_], env', x, env', trace_alloc.2 ⟨_, _, hshape, hsize, rfl⟩, hx,
      rfl⟩, fun i hi => Seat.raised_of_lt hi, ?_, hnames, fun st st' hst hst' hseated => ?_⟩
  · show Seats _ lay ((lay ++ [slot]).after x)
    rw [hclose.after]
    exact .raised lay [slot]
  · rw [perform_cons]
    have hlen : st'.length = lay.length := by rw [← Store.length_layout, hst']
    have hblank : Blank R lay.length (0 * (exts ++ exts').prod) ((0 + 1) * (exts ++ exts').prod)
        ((Action.alloc d.ty (exts ++ exts') (exts ++ exts').prod).perform st') := by
      intro o y _ _ hy
      simp only [Action.perform, Store.at?, ← hlen, List.getElem?_concat_length,
        Option.bind_some] at hy
      obtain ⟨ho, hy⟩ := Array.getElem?_eq_some_iff.1 hy
      rw [Array.getElem_replicate] at hy
      exact hy ▸ hR.undefined
    have hlay : Store.layout
        ((Action.alloc d.ty (exts ++ exts') (exts ++ exts').prod).perform st') = lay ++ [slot] := by
      rw [layout_performAction, hst']
      rfl
    exact (hfills.stores hst hlay (hseated.raised (Nat.le_of_eq hlen.symm) 1 _) hblank).congr
      fun i hi => (Seat.raised_of_lt hi).symm

end outermost

/-! ## Kernels -/

theorem Block.binders_prepended (buf : String) (lead : List Expr) (b : Block) :
    binders (mapAll (·.prependHere buf lead) b) = b.binders := by
  induction b using Block.induction with
  | nil => rfl
  | cons s rest ihs ihrest =>
    rw [mapAll, binders_cons, binders_cons, ihrest]
    congr 1
    cases s with
    | loop hd body => exact congrArg (hd.var :: ·) (ihs body rfl)
    | guard e body => exact ihs body rfl
    | _ => rfl

/-- The lifted allocation is the only one of its name in what follows it. -/
theorem Proc.LiftedAlloc.not_mem_binders {p q : Proc} {alloc : String} {lifts : Nat}
    {keepDims : Bool} (lift : p.LiftedAlloc alloc lifts keepDims q) :
    lift.d.name ∉ binders [lift.outer.withBody lift.inner] := by
  obtain ⟨-, hout⟩ := finish_eq_ok.1 lift.finished
  obtain ⟨rest, hrecast⟩ := lift.replaced
  obtain ⟨sc, hleads⟩ := hrecast.exists_leads p.scope
  -- the new kernel is valid, so the statements after the allocation do not bind its name
  have hfresh : FreshAll [] _ :=
    (hleads.new none (Proc.wellScoped hout)).freshAll fun _ hx => nomatch hx
  have hnew : lift.d.name ∉ binders (mapAll (·.prependHere lift.d.name (lift.dims.map (.var ·.var)))
      [lift.outer.withBody lift.inner] ++ rest) :=
    hfresh.2.not_mem_binders (List.mem_append_left _ (.head _))
  intro hmem
  rw [← binders_prepended] at hmem
  refine hnew ?_
  simp only [mapAll, List.cons_append, List.nil_append, Block.binders_cons,
    List.mem_append] at hmem ⊢
  exact .inl (hmem.resolve_right (by simp [binders, Block.nested, nestedAll]))

section kernels

variable {α β γ : Type} [Element α] [Element β] [Element γ]

/-- Wherever the run comes to a path, a declaration has extents there, and a tensor of these extents
is not too large. -/
def Proc.HasRoom (p : Proc) (c : Catalog) (args : Args α) (path : Path) (d : Decl) : Prop :=
  ∀ env st, p.Reaches c args path env st →
    ∃ shape, env.shape d = .ok shape ∧ (Tensor.size? shape).isSome

/-- **Lifting pairs kernels.** The rounds of a loop that adds no dimension share a slot, so there an
undefined element has to be related to all others. -/
theorem Proc.paired_liftAlloc {R : α → β → Prop} (hR : Element.Related R) {p q : Proc} {c : Catalog}
    {args : Args γ} {templates : Scope.Templates} {alloc : String} {lifts : Nat} {keepDims : Bool}
    (hvalid : p.problems templates = []) (lift : p.LiftedAlloc alloc lifts keepDims q)
    (hshare : (∀ y, R Element.undefined y) ∨ ∀ h ∈ lift.loops, (h.mode = .par || keepDims) = true)
    (hroom : p.HasRoom c args (lift.path.lift lifts) (lift.d.widened lift.dims))
    (hrun : (p.run c args).1 = .ok ()) :
    ∃ frame acts acts' e e', args.bindParams p.params = .ok frame ∧
      c.traceAll frame.env frame.store.layout p.body = some (acts, e) ∧
      c.traceAll frame.env frame.store.layout lift.b = some (acts', e') ∧
      Paired R frame.store.layout acts acts' := by
  have hdecl : lift.outer.decl? = none := by
    have hholds := lift.holds
    cases houter : lift.outer <;> rw [houter] at hholds <;> first | rfl | cases hholds
  have hadded : lift.dims = lift.loops.filter fun h => h.mode = .par || keepDims := lift.added
  refine paired_of_replaced hR (Proc.freshAll hvalid) hdecl lift.replaced
    (fun seen env st acts hreach htidy hfresh ht => ?_) hrun
  obtain ⟨shape, hshape, hsize⟩ := hroom env st hreach
  obtain ⟨size, hsize⟩ := Option.isSome_iff_exists.1 hsize
  replace hshape := (Evaluator.checked.extents_tallies _ (List.Subset.refl _)).eq_some hshape
  rw [hadded] at hshape ⊢
  exact paired_lifted hR c.calls_closed c.calls_seated _ lift.dropped_outer hshare
    htidy hfresh lift.not_mem_binders hshape hsize ht

/-- **Lifting with a dimension for every loop** keeps what a run leaves, also where this comes from
elements that were never written. -/
theorem Proc.run_liftAlloc_of_dims {p q : Proc} {c : Catalog} {args : Args α}
    {templates : Scope.Templates} {alloc : String} {lifts : Nat} {keepDims : Bool} {path : Path}
    {d : Decl} (hvalid : p.problems templates = [])
    (hlift : p.liftAlloc alloc lifts keepDims = .ok q)
    (hpick : p.pickAlloc alloc = .ok (path, d))
    (hdims : ∀ h ∈ (p.lifted path lifts).filterMap (·.header?), h.mode = .par ∨ keepDims = true)
    (hroom : p.HasRoom c args (path.lift lifts)
      (d.widened (addedDims keepDims (p.lifted path lifts))))
    (hrun : (p.run c args).1 = .ok ()) : q.run c args = (.ok (), (p.run c args).2) := by
  obtain hq | ⟨⟨lift⟩⟩ := liftedAlloc_of_liftAlloc hlift
  · rw [(finish_eq_ok.1 hq).1]
    exact Prod.ext hrun rfl
  obtain ⟨rfl, rfl⟩ := Prod.mk.inj (Except.ok.inj (hpick.symm.trans lift.picked))
  have hkept : ∀ h ∈ lift.loops, (h.mode = .par || keepDims) = true := by
    intro h hmem
    rw [LiftedAlloc.loops, List.filterMap_reverse, List.mem_reverse] at hmem
    simpa using hdims h hmem
  rw [← lift.added] at hroom
  obtain ⟨frame, acts, acts', e, e', hframe, hacts, hacts', hpaired⟩ :=
    paired_liftAlloc (Element.related_eq α) hvalid lift (.inr hkept) hroom hrun
  have hsame : perform (LoopNest.scope frame.store.layout acts') frame.store =
      perform (LoopNest.scope frame.store.layout acts) frame.store := by
    refine Seated.eq ?_ ?_ (hpaired.scope rfl rfl (.refl _ _))
    · rw [layout_perform, (Stmt.scope_traceAll_closes c.calls_closed hacts).after]
    · rw [layout_perform, (Stmt.scope_traceAll_closes c.calls_closed hacts').after]
  have hnew := run_of_traceAll (p := { p with body := lift.b }) hframe hacts'
  rw [(finish_eq_ok.1 lift.finished).1, hnew, hsame, run_of_traceAll hframe hacts]

end kernels

/-- A run comes to the first statement of a kernel before anything else. -/
theorem Proc.Reaches.env_of_first {α : Type} [Element α] {p : Proc} {c : Catalog} {args : Args α}
    {st : Store α} (h : p.Reaches c args [0] env st) {frame : Args.Frame α}
    (hframe : args.bindParams p.params = .ok frame) : env = frame.env := by
  obtain ⟨frame', hframe', hreach⟩ := h
  cases hframe.symm.trans hframe'
  generalize p.body = b at hreach
  cases hreach with
  | here => rfl
  | loop _ _ _ hinner | guard _ hinner => exact absurd rfl hinner.path_ne_nil

/-- Passes on what a temporary holds before it is written. -/
def delayed : Proc where
  name := "delayed"
  params := [.size "n", .buffer ⟨"x", .f32, [.var "n", .int 2], .dram⟩]
  body := [.guard (.binary .lt (.int 1) (.var "n")) [
    .loop ⟨"i", .var "n", .par⟩ [.loop ⟨"j", .int 2, .seq⟩ [
      .alloc ⟨"t", .f32, [], .dram⟩,
      .store .set "x" [.var "i", .var "j"] (.read "t" []),
      .store .set "t" [] (.int 1)]]]]

/-- Every element of the temporary is still read before it is written. -/
theorem delayed_liftAlloc :
    let args : Args Float := ⟨[("n", 3)], [("x", ⟨.f32, [3, 2], #[0, 1, 2, 3, 4, 5]⟩)]⟩
    let q : Proc := { delayed with body := [
      .alloc ⟨"t", .f32, [.var "n", .int 2], .dram⟩,
      .guard (.binary .lt (.int 1) (.var "n")) [
        .loop ⟨"i", .var "n", .par⟩ [.loop ⟨"j", .int 2, .seq⟩ [
          .store .set "x" [.var "i", .var "j"] (.read "t" [.var "i", .var "j"]),
          .store .set "t" [.var "i", .var "j"] (.int 1)]]]] }
    delayed.problems (some (Catalog.find? {})) = [] ∧ delayed.liftAlloc "t" 3 true = .ok q ∧
      delayed.HasRoom {} args [0] ⟨"t", .f32, [.var "n", .int 2], .dram⟩ ∧
      (delayed.run {} args).1 = .ok () ∧ q.run {} args = (.ok (), (delayed.run {} args).2) := by
  intro args q
  have hvalid : delayed.problems (some (Catalog.find? {})) = [] := rfl
  have hlift : delayed.liftAlloc "t" 3 true = .ok q := by cbv
  have hpick : delayed.pickAlloc "t" = .ok ([0, 0, 0, 0], ⟨"t", .f32, [], .dram⟩) := by cbv
  have hroom : delayed.HasRoom {} args [0] ⟨"t", .f32, [.var "n", .int 2], .dram⟩ := by
    intro env st hreach
    rw [hreach.env_of_first rfl]
    exact ⟨[3, 2], rfl, rfl⟩
  have hrun : (delayed.run {} args).1 = .ok () := rfl
  exact ⟨hvalid, hlift, hroom, hrun,
    Proc.run_liftAlloc_of_dims hvalid hlift hpick (fun _ _ => .inr rfl) hroom hrun⟩

/-- A loop that is never reached, with more rounds than a tensor has room for. -/
def unreached : Proc where
  name := "unreached"
  params := [.buffer ⟨"x", .f32, [.int 1], .dram⟩]
  body := [.guard (.binary .lt (.int 1) (.int 0)) [
    .loop ⟨"i", .int 4611686018427387904, .par⟩ [
      .alloc ⟨"t", .f64, [.int 4], .dram⟩,
      .store .set "t" [.int 0] (.int 0)]]]

/-- The lifted tensor has extents, and it is too large. -/
theorem unreached_liftAlloc :
    let args : Args Float := ⟨[], [("x", ⟨.f32, [1], #[0]⟩)]⟩
    let wide : Decl := ⟨"t", .f64, [.int 4611686018427387904, .int 4], .dram⟩
    let q : Proc := { unreached with body := [.alloc wide,
      .guard (.binary .lt (.int 1) (.int 0)) [
        .loop ⟨"i", .int 4611686018427387904, .par⟩ [
          .store .set "t" [.var "i", .int 0] (.int 0)]]] }
    unreached.problems (some (Catalog.find? {})) = [] ∧ unreached.liftAlloc "t" 2 false = .ok q ∧
      (∀ env st, unreached.Reaches {} args [0] env st →
        env.shape wide = .ok [4611686018427387904, 4]) ∧
      (unreached.run {} args).1 = .ok () ∧ (q.run {} args).1 = .error .overflow := by
  intro args wide q
  refine ⟨rfl, by cbv, ?_, rfl, rfl⟩
  intro env st hreach
  rw [hreach.env_of_first rfl]
  rfl

end LoopNest
