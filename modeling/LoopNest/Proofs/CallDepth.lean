import LoopNest.Proofs.Safety

/-!
# How deep calls are nested

A run goes as deep as templates call each other. Where no template that the kernel comes to calls
itself, directly or through others, calls are nested at most as deep as there are templates: the run
never ends for its depth, and a larger bound makes no difference (`Proc.run_settled`).

Registering looks at one template at a time and does not know the others, so it takes a template
that calls itself; `spin_never_ends` is a valid kernel that then runs into every bound.
-/

namespace LoopNest

open Exec Relation Stmt

/-! ## Evaluations -/

section bounded

variable {α β γ : Type}

/-- The evaluation does not end for the depth of calls. -/
def Bounded (x : Except Failure β) : Prop := x ≠ .error .tooDeep

namespace Bounded

theorem ok (b : β) : Bounded (.ok b) := nofun

theorem fail (e : EvalError) : Bounded (failWith e : Except Failure β) := nofun

theorem noOverflow (o : Option β) : Bounded (noOverflow o) := by
  cases o <;> exact nofun

theorem bind {x : Except Failure β} {f : β → Except Failure γ} (hx : Bounded x)
    (hf : ∀ b, Bounded (f b)) : Bounded (x >>= f) := by
  cases x with
  | ok b => exact hf b
  | error e => exact fun h => hx (by cases h; rfl)

theorem check {p : Prop} [Decidable p] {e : EvalError} {next : PUnit → Except Failure β}
    (hnext : Bounded (next ⟨⟩)) : Bounded (if p then failWith e >>= next else next ⟨⟩) := by
  split
  · exact (fail e).bind fun _ => hnext
  · exact hnext

theorem view (env : Env) (x : String) : Bounded (env.view x) := by
  unfold Env.view
  split <;> exact nofun

theorem index (env : Env) (e : Expr) : Bounded (env.index e) := by
  fun_induction Env.index env e with
  | case1 | case2 | case3 | case4 => exact nofun
  | case5 op l r ihl ihr =>
    refine ihl.bind fun x => ihr.bind fun y => ?_
    cases op with
    | add | sub | mul => exact noOverflow _
    | div => cases Word.div? x y <;> exact nofun
    | mod => cases Word.mod? x y <;> exact nofun
    | _ => exact fail _
  | case6 e ih => exact ih.bind fun n => noOverflow _
  | case7 | case8 => exact nofun

theorem indices (env : Env) (es : List Expr) : Bounded (env.indices es) := by
  induction es with
  | nil => exact ok _
  | cons e es ih => exact (index env e).bind fun n => ih.bind fun ns => ok _

theorem condition (env : Env) (e : Expr) : Bounded (env.condition e) := by
  fun_induction Env.condition env e with
  | case1 l r ihl ihr =>
    refine ihl.bind fun b => ?_
    cases b with
    | false => exact ok _
    | true => exact ihr
  | case2 op l r hand =>
    refine (index env l).bind fun x => (index env r).bind fun y => ?_
    cases op <;> first | exact ok _ | exact fail _
  | case3 e => exact fail _

theorem extents (env : Env) (buf : String) (es : List Expr) : Bounded (env.extents buf es) := by
  induction es with
  | nil => exact ok _
  | cons e es ih => exact (index env e).bind fun n => check (ih.bind fun ns => ok _)

theorem narrow (env : Env) (w : Window) (dims : List ViewDim) (ds : List WindowDim) :
    Bounded (env.narrow w dims ds) := by
  fun_induction Env.narrow env w dims ds with
  | case1 => exact ok _
  | case2 | case4 => exact fail _
  | case3 ds c dims ih => exact ih.bind fun rest => ok _
  | case5 offset extent dims e ds ih =>
    exact (index env e).bind fun p => check ((noOverflow _).bind fun c => ih.bind fun rest => ok _)
  | case6 offset extent dims lo hi ds ih =>
    exact (index env lo).bind fun a => (index env hi).bind fun b => check
      ((noOverflow _).bind fun start => (noOverflow _).bind fun n => ih.bind fun rest => ok _)

theorem enter (c : Catalog) (env : Env) (name : String) (args : List Window) :
    Bounded (c.enter env name args) := by
  have hparams : ∀ (l : List (Param × Window)) (inner : Env), Bounded (env.enter inner l) := by
    intro l
    induction l with
    | nil => exact fun inner => ok _
    | cons pw l ih =>
      intro inner
      refine bind ?_ fun v => ih _
      exact (view env pw.2.buf).bind fun base => (narrow env _ _ _).bind fun dims => ok _
  unfold Catalog.enter
  split
  · exact fail _
  · split
    · exact fail _
    · exact (hparams _ _).bind fun inner => ok _

theorem address (env : Env) (buf : String) (idx : List Expr) : Bounded (env.address buf idx) := by
  refine (view env buf).bind fun v => (indices env idx).bind fun ns => bind ?_ fun cs => ok _
  have hfrom (out : EvalError) (dims : List ViewDim) (ns : List Word) :
      Bounded (View.coordinatesFrom out dims ns) := by
    fun_induction View.coordinatesFrom out dims ns with
    | case1 => exact ok _
    | case2 c dims ns ih => exact ih.bind fun rest => ok _
    | case3 | case4 => exact fail _
    | case5 offset extent dims i ns hin ih =>
      exact (noOverflow _).bind fun c => ih.bind fun rest => ok _
  unfold View.coordinates
  split
  · exact fail _
  · exact hfrom _ _ _

theorem locate (st : Store α) (env : Env) (buf : String) (idx : List Expr) :
    Bounded (st.locate env buf idx) := by
  refine (address env buf idx).bind fun (v, cs) => ?_
  dsimp only
  split <;> exact nofun

theorem data [Element α] (st : Store α) (env : Env) (e : Expr) : Bounded (st.data env e) := by
  fun_induction Store.data st env e with
  | case1 v => exact (index env _).bind fun n => ok _
  | case2 | case3 => exact ok _
  | case4 b idx =>
    refine (address env b idx).bind fun (v, cs) => ?_
    dsimp only
    split <;> exact nofun
  | case5 op l r ihl ihr =>
    refine ihl.bind fun x => ihr.bind fun y => ?_
    cases op <;> exact nofun
  | case6 e ih => exact ih.bind fun x => ok _

theorem bindParams (args : Args α) (params : List Param) : Bounded (args.bindParams params) := by
  have hparam (f : Args.Frame α) (q : Param) : Bounded (args.bindParam f q) := by
    cases q with
    | size n =>
      simp only [Args.bindParam]
      split
      · exact fail _
      · split <;> first | exact ok _ | exact fail _
    | buffer d =>
      refine (extents f.env d.name d.shape).bind fun shape => ?_
      split
      · exact fail _
      · split <;> first | exact ok _ | exact fail _
  suffices hfold : ∀ (params : List Param) (f : Args.Frame α),
      Bounded (params.foldlM (Args.bindParam args) f) from hfold params _
  intro params
  induction params with
  | nil => exact fun f => ok f
  | cons q params ih => exact fun f => (hparam f q).bind ih

end Bounded

end bounded

/-! ## Computations on the store -/

/-- The two computations do the same, and do not end for the depth of calls. -/
def Exec.Settled {α β : Type} (x y : Exec α β) : Prop :=
  ∀ st, x.run.run st = y.run.run st ∧ Bounded (x.run.run st).1

namespace Exec.Settled

variable {α β γ : Type}
variable {x : Except Failure β} {f g : β → Exec α γ}

theorem pure (b : β) : Settled (Pure.pure b : Exec α β) (Pure.pure b) := fun _ => ⟨rfl, .ok b⟩

theorem get : Settled (MonadState.get : Exec α (Store α)) MonadState.get := fun st => ⟨rfl, .ok st⟩

theorem modify (f : Store α → Store α) :
    Settled (modify f : Exec α PUnit) (modify f) := fun _ => ⟨rfl, .ok _⟩

theorem eval (h : Bounded x) : Settled (Exec.eval x : Exec α β) (Exec.eval x) := fun _ => ⟨rfl, h⟩

theorem bind {x y : Exec α β} (h : Settled x y) (hfg : ∀ b, Settled (f b) (g b)) :
    Settled (x >>= f) (y >>= g) := by
  intro st
  obtain ⟨hxy, hbounded⟩ := h st
  cases hx : x.run.run st with
  | mk r st' =>
    rw [hx] at hxy hbounded
    cases r with
    | ok b =>
      rw [run_bind_ok hx, run_bind_ok hxy.symm]
      exact hfg b st'
    | error e =>
      rw [run_bind_error hx, run_bind_error hxy.symm]
      exact ⟨rfl, fun h => hbounded (by cases h; rfl)⟩

/-- After an evaluation its value is known. -/
theorem eval_bind (hx : Bounded x) (hfg : ∀ b, x = .ok b → Settled (f b) (g b)) :
    Settled (Exec.eval x >>= f) (Exec.eval x >>= g) := by
  cases x with
  | ok b => exact hfg b rfl
  | error e => exact fun st => ⟨rfl, fun h => hx (by cases h; rfl)⟩

theorem inScope {x y : Exec α β} (h : Settled x y) : Settled (Exec.inScope x) (Exec.inScope y) := by
  intro st
  rw [run_inScope, run_inScope, (h st).1]
  exact ⟨rfl, (h st).1 ▸ (h st).2⟩

theorem countUp {f g : Word → Exec α Unit} (h : ∀ k, Settled (f k) (g k)) (n k : Nat) :
    Settled (Exec.countUp f n k) (Exec.countUp g n k) := by
  induction n generalizing k with
  | zero => exact pure ()
  | succ n ih => exact (h _).bind fun _ => ih (k + 1)

end Exec.Settled

/-! ## Who calls whom -/

/-- A statement of the block calls the template. -/
def Block.Calls (b : Block) (name : String) : Prop := ∃ args, .call name args ∈ b.nested

/-- The body of the first template calls the second one. -/
def Catalog.Calls (c : Catalog) (n m : String) : Prop := ∃ t, c.find? n = some t ∧ t.body.Calls m

variable {c : Catalog} {name : String}

theorem Catalog.of_find? {t : Proc} (h : c.find? name = some t) : t ∈ c.templates ∧ t.name = name :=
  ⟨List.mem_of_find?_eq_some h, by simpa using List.find?_some h⟩

/-- No template that is come to from this one calls itself, directly or through others. -/
def Catalog.Grounded (c : Catalog) (n : String) : Prop :=
  ∀ m, ReflTransGen c.Calls n m → ¬ TransGen c.Calls m m

theorem Catalog.Grounded.of_calls {n m : String} (h : c.Grounded n) (hcall : c.Calls n m) :
    c.Grounded m := fun k hk => h k (.head hcall hk)

/-- Where calls only lead down, no template calls itself. -/
theorem Catalog.grounded_of_rank (rank : String → Nat) (h : ∀ n m, c.Calls n m → rank m < rank n)
    (n : String) : c.Grounded n := by
  intro m _ hcycle
  have hlt : ∀ k, TransGen c.Calls m k → rank k < rank m := by
    intro k hk
    induction hk with
    | single hmk => exact h m _ hmk
    | tail _ hstep ih => exact Nat.lt_trans (h _ _ hstep) ih
  exact Nat.lt_irrefl _ (hlt m hcycle)

section runs

variable {α : Type} {c : Catalog} {callee callee' : Env → Block → Exec α Unit}

/-- Two ways to run the bodies of templates agree on those that the block calls. -/
def Block.Settles (c : Catalog) (callee callee' : Env → Block → Exec α Unit) (b : Block) : Prop :=
  ∀ name t, b.Calls name → c.find? name = some t →
    ∀ env, Settled (callee env t.body) (callee' env t.body)

theorem Block.Settles.of_body {s : Stmt} {body : Block} (h : Block.Settles c callee callee' [s])
    (hs : s.body? = some body) : body.Settles c callee callee' := by
  rintro name t ⟨args, hargs⟩
  refine h name t ⟨args, ?_⟩
  cases s with
  | loop hd b | guard e b =>
    cases hs
    rw [Block.nested, Stmt.nestedAll, Stmt.nested]
    exact List.mem_append_left _ (.tail _ hargs)
  | store u b idx rhs | alloc d | call n as => cases hs

/-- The step: a statement does the same either way. Stated for a statement whose body, if it has
one, does. -/
theorem Stmt.exec_settled_of_body [Element α] {s : Stmt} (h : Block.Settles c callee callee' [s])
    (hbody : ∀ body, s.body? = some body → ∀ env,
      Settled (execAll c callee env body) (execAll c callee' env body)) (env : Env) :
    Settled (s.exec c callee env) (s.exec c callee' env) := by
  cases s with
  | loop hd body =>
    refine (Settled.eval (.index env hd.bound)).bind fun n => Settled.bind ?_ fun _ => .pure env
    exact .countUp (fun k => (hbody body rfl _).inScope) _ _
  | guard e body =>
    refine (Settled.eval (.condition env e)).bind fun b => ?_
    cases b with
    | false => exact .pure env
    | true => exact (hbody body rfl env).inScope.bind fun _ => .pure env
  | store u b idx rhs =>
    refine Settled.get.bind fun st => (Settled.eval (.data st env rhs)).bind fun value => ?_
    refine Settled.get.bind fun st => (Settled.eval (.locate st env b idx)).bind fun place => ?_
    cases u <;> exact (Settled.modify _).bind fun _ => .pure env
  | alloc d =>
    refine (Settled.eval (.extents env _ _)).bind fun shape => ?_
    refine (Settled.eval (.noOverflow _)).bind fun t => Settled.get.bind fun st => ?_
    exact (Settled.modify _).bind fun _ => .pure _
  | call name args =>
    refine Settled.eval_bind (.enter c env name args) fun (inner, body) henter => ?_
    obtain ⟨t, ht, -, -, rfl⟩ := Catalog.enter_eq_ok.1 henter
    have hcalls : Block.Calls [.call name args] name :=
      ⟨args, by simp [Block.nested, nestedAll, nested]⟩
    exact (h name t hcalls ht inner).bind fun _ => .pure env

/-- The run: a block does the same either way. -/
theorem Stmt.execAll_settled [Element α] (b : Block) (h : b.Settles c callee callee') (env : Env) :
    Settled (execAll c callee env b) (execAll c callee' env b) := by
  induction b using Block.induction generalizing env with
  | nil => exact .pure ()
  | cons s rest ihs ihrest =>
    have hs : Block.Settles c callee callee' [s] := by
      rintro name t ⟨args, hargs⟩
      exact h name t ⟨args, by simp_all [Block.nested, nestedAll]⟩
    have hrest : Block.Settles c callee callee' rest := by
      rintro name t ⟨args, hargs⟩
      exact h name t ⟨args, by simp_all [Block.nested, nestedAll]⟩
    refine Settled.bind ?_ fun env' => ihrest hrest env'
    exact exec_settled_of_body hs (fun body hb => ihs body hb (hs.of_body hb)) env

/-! ## The templates that are being run -/

/-- The templates whose bodies are being run, the block being the body of the innermost one. They
are distinct, and each of them leads to what the block calls. -/
structure Catalog.Active (c : Catalog) (path : List String) (b : Block) : Prop where
  nodup : path.Nodup
  known : path ⊆ c.templates.map (·.name)
  leads : ∀ n ∈ path, ∀ m, b.Calls m → TransGen c.Calls n m
  grounded : ∀ m, b.Calls m → c.Grounded m

namespace Catalog.Active

variable {path : List String} {b : Block}

theorem length_le (h : c.Active path b) : path.length ≤ c.size := by
  have hle := (List.subperm_of_subset h.nodup h.known).length_le
  rwa [List.length_map] at hle

/-- A call goes into a template that is not being run yet. -/
theorem call (h : c.Active path b) {name : String} {t : Proc} (hcall : b.Calls name)
    (ht : c.find? name = some t) : c.Active (name :: path) t.body  where
  nodup := by
    refine List.nodup_cons.2 ⟨fun hmem => ?_, h.nodup⟩
    exact h.grounded name hcall name .refl (h.leads name hmem name hcall)
  known := by
    obtain ⟨hmem, rfl⟩ := Catalog.of_find? ht
    exact List.cons_subset.2 ⟨List.mem_map_of_mem hmem, h.known⟩
  leads n hn m hm := by
    obtain rfl | hn := List.mem_cons.1 hn
    · exact .single ⟨t, ht, hm⟩
    · exact (h.leads n hn name hcall).tail ⟨t, ht, hm⟩
  grounded m hm := (h.grounded name hcall).of_calls ⟨t, ht, hm⟩

/-- Once all templates are being run, none is left to be called. -/
theorem settles_of_size_le (h : c.Active path b) (hfull : c.size ≤ path.length) :
    b.Settles c callee callee' := by
  intro name t hcall ht
  have hlen := (h.call hcall ht).length_le
  rw [List.length_cons] at hlen
  omega

end Catalog.Active

/-- Depths that leave room for all other templates give the same run. -/
theorem Block.exec_settled [Element α] {path : List String} {b : Block} (h : c.Active path b)
    {depth depth' : Nat} (hdepth : c.size ≤ path.length + depth)
    (hdepth' : c.size ≤ path.length + depth') (env : Env) :
    Settled (Block.exec c depth env b : Exec α Unit) (Block.exec c depth' env b) := by
  -- each call uses up one level of depth and adds one template to the path
  induction depth generalizing path b env depth' with
  | zero =>
    cases depth' <;> exact (execAll_settled b (h.settles_of_size_le hdepth) env).inScope
  | succ depth ih =>
    cases depth' with
    | zero => exact (execAll_settled b (h.settles_of_size_le hdepth') env).inScope
    | succ depth' =>
      refine (execAll_settled b (fun name t hcall ht inner => ?_) env).inScope
      refine ih (h.call hcall ht) ?_ ?_ inner
      · rw [List.length_cons]
        omega
      · rw [List.length_cons]
        omega

end runs

/-- **Runs end.** No template that the kernel comes to calls itself, directly or through others.
Then calls are nested at most as deep as there are templates: no run ends for its depth, whatever
the arguments, and a run that may go deeper does the same. -/
theorem Proc.run_settled {α : Type} [Element α] {c : Catalog} {p : Proc}
    (hcalls : ∀ n, p.body.Calls n → c.Grounded n) (args : Args α) :
    (p.run c args).1 ≠ .error .tooDeep ∧
      ∀ depth, c.size ≤ depth → ∀ (env : Env) (st : Store α),
        (Block.exec c depth env p.body).run.run st =
          (Block.exec c c.size env p.body).run.run st := by
  have hactive : c.Active [] p.body := ⟨.nil, nofun, nofun, hcalls⟩
  constructor
  · unfold Proc.run
    split
    next e hframe =>
      have hbounded := Bounded.bindParams args p.params
      rw [hframe] at hbounded
      exact fun h => hbounded (by cases h; rfl)
    next frame hframe =>
      have hdepth : c.size ≤ ([] : List String).length + c.callDepth := by
        unfold Catalog.callDepth
        omega
      exact (Block.exec_settled hactive hdepth hdepth frame.env frame.store).2
  · intro depth hdepth env st
    exact (Block.exec_settled hactive (by simpa using hdepth) (by simp) env st).1

/-! ## Templates that call templates -/

/-- A template that sets one element to zero. -/
def zeroOne : Proc where
  name := "zero"
  params := [.buffer ⟨"dst", .f32, [.int 1], .dram⟩]
  body := [.store .set "dst" [.int 0] (.float 0)]
  instr := some "zero"

/-- A template that calls a template with its whole buffer. -/
def passOn (name callee : String) : Proc where
  name := name
  params := [.buffer ⟨"dst", .f32, [.int 1], .dram⟩]
  body := [.call callee [⟨"dst", [.interval (.int 0) (.int 1)]⟩]]
  instr := some name

/-- A kernel that calls a template with its whole buffer. -/
def calling (callee : String) : Proc where
  name := "f"
  params := [.buffer ⟨"D", .f32, [.int 1], .dram⟩]
  body := [.call callee [⟨"D", [.interval (.int 0) (.int 1)]⟩]]

theorem calls_passOn {callee m : String} (h : (passOn name callee).body.Calls m) : m = callee := by
  obtain ⟨args, hargs⟩ := h
  simp [passOn, Block.nested, Stmt.nestedAll, Stmt.nested] at hargs
  exact hargs.1

/-- The kernel calls a template that calls another one. -/
theorem passedOn_settled : ∃ c,
    Catalog.registerAll {} [zeroOne, passOn "outer" "zero"] = (c, none) ∧
    (calling "outer").problems (some c.find?) = [] ∧
    ∀ args : Args Float, ((calling "outer").run c args).1 ≠ .error .tooDeep := by
  refine ⟨⟨[zeroOne, passOn "outer" "zero"]⟩, rfl, rfl, fun args => (Proc.run_settled ?_ args).1⟩
  refine fun n _ => Catalog.grounded_of_rank (fun n => if n = "outer" then 1 else 0) ?_ n
  rintro n m ⟨t, ht, hm⟩
  obtain ⟨hmem, rfl⟩ := Catalog.of_find? ht
  obtain rfl | rfl := List.mem_pair.1 hmem
  · obtain ⟨args, hargs⟩ := hm
    simp [zeroOne, Block.nested, Stmt.nestedAll, Stmt.nested] at hargs
  · rw [calls_passOn hm]
    decide

/-- A call ends for its depth where the body of the template does. -/
theorem run_call_tooDeep {callee : Env → Block → Exec Float Unit} {env inner : Env} {body : Block}
    {args : List Window} {st : Store Float} (henter : c.enter env name args = .ok (inner, body))
    (h : ((callee inner body).run.run st).1 = .error .tooDeep) :
    ((inScope (execAll c callee env [.call name args])).run.run st).1 = .error .tooDeep := by
  cases hrun : (callee inner body).run.run st with
  | mk r st' =>
    rw [hrun] at h
    cases h
    have hexec : ((Stmt.call name args).exec c callee env).run.run st = (.error .tooDeep, st') := by
      rw [Stmt.exec, henter, run_bind_ok (run_eval _ st)]
      exact run_bind_error hrun
    rw [run_inScope, execAll, run_bind_error hexec]

/-- A template that calls itself is registered, a kernel that calls it is valid, and its run goes
deeper than any bound. -/
theorem spin_never_ends : ∃ c frame, Catalog.registerAll {} [passOn "spin" "spin"] = (c, none) ∧
    (calling "spin").problems (some c.find?) = [] ∧
    Args.bindParams ⟨[], [("D", ⟨.f32, [1], #[0]⟩)]⟩ (calling "spin").params = .ok frame ∧
    ∀ depth, ((Block.exec c depth frame.env (calling "spin").body).run.run frame.store :
      Except Failure Unit × Store Float).1 = .error .tooDeep := by
  refine ⟨⟨[passOn "spin" "spin"]⟩, _, rfl, rfl, rfl, fun depth => ?_⟩
  -- the body is run in the same environment again and again
  have hspin (depth : Nat) (st : Store Float) :
      ((Block.exec ⟨[passOn "spin" "spin"]⟩ depth
        [("dst", .buffer ⟨0, "D", [.free 0 1]⟩)] (passOn "spin" "spin").body).run.run st).1 =
        .error .tooDeep := by
    induction depth generalizing st with
    | zero => rfl
    | succ depth ih => exact run_call_tooDeep rfl (ih st)
  cases depth with
  | zero => rfl
  | succ depth => exact run_call_tooDeep rfl (hspin depth _)

end LoopNest
