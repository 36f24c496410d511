import LoopNest.Proofs.Context
import LoopNest.Proofs.Trace.Open
import LoopNest.Proofs.Trace.Slice

/-!
# Traces of a block whose allocation is lifted out of it

An allocation is dropped from a block, and the block uses part of a larger tensor from outside
instead: the slice that the variables of the kept loops around the allocation lead to. Wherever the
block has a trace, so does the one without the allocation, and the two fill the slice
(`Block.Dropped.fills`). The rounds of a kept loop have slices of their own. Those of another loop
share one, so there an element must be related to whatever an earlier round leaves.
-/

namespace LoopNest

open Stmt Seat

variable {acts : List Action} {n : Word} {loops : List Header} {x y : String} {h : Header}
  {rest : Block}

/-! ## Dropping an allocation -/

/-- The block without one of its allocations, which is inside the loops given, outermost first. -/
inductive Block.Dropped (d : Decl) : List Header → Block → Block → Prop
  | here {rest : Block} : Dropped d [] (.alloc d :: rest) rest
  | next {loops : List Header} {s : Stmt} {rest rest' : Block} :
    Dropped d loops rest rest' → Dropped d loops (s :: rest) (s :: rest')
  | loop {loops : List Header} {h : Header} {body body' rest : Block} :
    Dropped d loops body body' →
    Dropped d (h :: loops) (.loop h body :: rest) (.loop h body' :: rest)
  | guard {loops : List Header} {e : Expr} {body body' rest : Block} :
    Dropped d loops body body' →
    Dropped d loops (.guard e body :: rest) (.guard e body' :: rest)

theorem Block.Dropped.mem_binders {d : Decl} {b b' : Block} (h : Block.Dropped d loops b b') :
    d.name ∈ b.binders := by
  induction h with
  | here =>
    rw [binders_cons]
    exact List.mem_append_left _ (.head _)
  | next _ ih =>
    rw [binders_cons]
    exact List.mem_append_right _ ih
  | loop _ ih =>
    rw [binders_cons]
    exact List.mem_append_left _ (.tail _ ih)
  | guard _ ih =>
    rw [binders_cons]
    exact List.mem_append_left _ ih

/-- Leading indices make no difference to a block in which the buffer stands for nothing. -/
theorem Stmt.traceAll_unbound {ev : Evaluator} {c : Catalog} {callee : Callee} (hc : callee.Closed)
    (hcallee : callee.Seated) {b : Block} {ρ : Nat → Seat} {lay lay' : Layout}
    (hρ : Seats ρ lay lay') {buf : String} {env env' e : Env} (henv : env.SeatsBut [buf] ρ env')
    (hunbound : env.lookup buf = none) (hbuf : buf ∉ b.binders)
    (ht : traceAll ev c callee env lay b = some (acts, e)) (lead : List String) :
    ∃ acts' e', traceAll ev c callee env' lay'
        (mapAll (·.prependHere buf (lead.map .var)) b) = some (acts', e') ∧
      Reseats ρ lay lay' acts acts' ∧ e.SeatsBut [buf] ρ e' ∧ e'.view? buf = env'.view? buf := by
  have hnone : env.view? buf = none := by rw [Env.view?, hunbound]
  have hopens : env.Opens ρ buf lead env' := ⟨henv, fun hv => by rw [hnone] at hv; cases hv⟩
  obtain ⟨acts', e', ht', hact, he, -, hview⟩ := traceAll_opened hc hcallee hρ
    (fun x hx => ⟨ne_of_mem_of_not_mem hx hbuf, fun _ => hnone⟩) hopens ht
  exact ⟨acts', e', ht', hact, he.toSeatsBut, hview⟩

/-! ## Waiting for the allocation -/

/-- The state of two runs between the statement that the allocation was lifted before and the place
where it was. In the second run the buffer is the tensor `J`. The kept loops that were entered have
the variables, indices and extents `leads`, which lead to the row `row`; those with the headers
`dims` and the extents `exts` are still to come. -/
structure Awaits (ev : Evaluator) (J : Nat) (d : Decl) (shape : List Nat)
    (leads : List (String × Word × Nat)) (row : Nat) (dims : List Header) (exts : List Nat)
    (seen : List String) (ρ : Nat → Seat) (env env' : Env) (lay lay' : Layout) : Prop where
  seats : Seats ρ lay lay'
  away : ∀ {i o q}, (ρ i).Lies o q → q.1 ≠ J
  slot : lay'[J]? = some ⟨d.ty, leads.map (·.2.2) ++ (exts ++ shape),
    (leads.map (·.2.2) ++ (exts ++ shape)).prod⟩
  view : env'.view? d.name = some ⟨J, d.name, (leads.map (·.2.2) ++ (exts ++ shape)).map .whole⟩
  tidy : env.Tidy seen lay
  names : env.SeatsBut [d.name] ρ env'
  indices : env.Leads (leads.map (·.1)) (leads.map (·.2))
  offset : Tensor.offsetFrom? 0 (leads.map (·.2.2)) (leads.map (·.2.1)) = some row
  extents : ev.extents env (dims.map (·.bound)) = some exts
  inner : ev.extents env d.shape = some shape

theorem Env.Tidy.value?_bind {seen : List String} {env : Env} {lay : Layout} (h : env.Tidy seen lay)
    (hx : x ∉ seen) (hy : env.value? y = some n) (b : Binding) :
    (env.bind x b).value? y = some n := by
  have hne : y ≠ x := fun hyx => by simp [hyx, Env.value?, h.bound x hx] at hy
  rw [Env.value?_bind, if_neg hne, hy]

theorem Env.Tidy.value?_trace {seen : List String} {env e : Env} {lay : Layout}
    (h : env.Tidy seen lay) {ev : Evaluator} {c : Catalog} {callee : Callee} (hc : callee.Closed)
    {s : Stmt} (hfresh : s.Fresh seen) (ht : s.trace ev c callee env lay = some (acts, e))
    (hy : env.value? y = some n) : e.value? y = some n := by
  cases s with
  | alloc d =>
    obtain ⟨shape, size, -, -, ⟨⟩⟩ := trace_alloc.1 ht
    exact h.value?_bind hfresh hy _
  | _ =>
    obtain ⟨-, rfl⟩ := (trace_grows hc ht).1 rfl
    exact hy

namespace Awaits

variable {ev : Evaluator} {J : Nat} {d : Decl} {shape : List Nat}
  {leads : List (String × Word × Nat)} {row : Nat} {dims : List Header} {exts : List Nat}
  {seen : List String} {ρ : Nat → Seat} {env env' : Env} {lay lay' : Layout}

theorem lt (h : Awaits ev J d shape leads row dims exts seen ρ env env' lay lay') :
    J < lay'.length := (List.getElem?_eq_some_iff.1 h.slot).1

/-- A loop is entered. -/
theorem bind_index (h : Awaits ev J d shape leads row dims exts seen ρ env env' lay lay')
    (hx : x ∉ seen) (hne : x ≠ d.name) (n : Word) :
    Awaits ev J d shape leads row dims exts (x :: seen) ρ (env.bind x (.index n))
      (env'.bind x (.index n)) lay lay' := by
  have hvalue : ∀ {y m}, env.value? y = some m → (env.bind x (.index n)).value? y = some m :=
    fun hy => h.tidy.value?_bind hx hy _
  have hkeep : ev.Keeps env _ id := .of_value? hvalue
  exact {
    h with
    view := by rw [Env.view?_bind_of_ne hne, h.view]
    tidy := h.tidy.bind_index x n
    names := h.names.bind_index x n
    indices := h.indices.mono hvalue
    extents := by simpa using hkeep.extents h.extents
    inner := by simpa using hkeep.extents h.inner }

/-- The extent of a kept loop is its bound. -/
theorem extents_eq
    (hstate : Awaits ev J d shape leads row (h :: dims) exts seen ρ env env' lay lay')
    (hn : ev.eval env h.bound = some n) :
    ∃ exts', exts = n.toInt.toNat :: exts' ∧ ev.extents env (dims.map (·.bound)) = some exts' := by
  obtain _ | ⟨⟨m, hm, -, rfl⟩, hexts⟩ := Evaluator.extents_eq_some.1 hstate.extents
  obtain rfl := Option.mem_unique hn hm
  exact ⟨_, rfl, Evaluator.extents_eq_some.2 hexts⟩

/-- A kept loop is entered: its index and its extent are the next ones to lead to a row. -/
theorem enter
    (hstate : Awaits ev J d shape leads row (h :: dims) (n.toInt.toNat :: exts) seen ρ env env'
      lay lay')
    (hx : h.var ∉ seen) (hne : h.var ≠ d.name) (hn : ev.eval env h.bound = some n) {k : Nat}
    (hk : k < n.toInt.toNat) :
    Awaits ev J d shape (leads ++ [(h.var, Int64.ofNat k, n.toInt.toNat)])
      (row * n.toInt.toNat + k) dims exts (h.var :: seen) ρ (env.turn h k) (env'.turn h k)
      lay lay' := by
  have hin := hstate.bind_index hx hne (Int64.ofNat k)
  have hkeep : ev.Keeps env (env.turn h k) id :=
    .of_value? fun hy => hstate.tidy.value?_bind hx hy _
  obtain ⟨exts', hcons, hexts⟩ := hin.extents_eq (hkeep _ _ hn)
  obtain rfl := (List.cons.inj hcons).2
  have hvar : (env.turn h k).value? h.var = some (Int64.ofNat k) := by
    rw [Env.value?_bind, if_pos rfl]
  refine { hin with
    slot := by simpa using hin.slot
    view := by simpa using hin.view
    indices := ?_
    offset := ?_
    extents := hexts }
  · rw [List.map_append, List.map_append]
    exact hin.indices.concat hvar (ViewDim.has_of_lt hk)
  · rw [List.map_append, List.map_append, Tensor.offsetFrom?_append hin.offset]
    show (if 0 ≤ (Int64.ofNat k).toInt ∧ (Int64.ofNat k).toInt < (n.toInt.toNat : Nat) then _
      else none) = _
    rw [Word.toInt_ofNat hk, if_pos (by omega), Int.toNat_natCast]
    rfl

/-- A statement before the allocation has run. -/
theorem trace (h : Awaits ev J d shape leads row dims exts seen ρ env env' lay lay') {c : Catalog}
    {callee : Callee} (hc : callee.Closed) {s : Stmt} (hfresh : s.Fresh seen) {a a' : List Action}
    {e e' : Env} (ht : s.trace ev c callee env lay = some (a, e)) (hgrow' : Grows lay' a')
    (hseats : Seats ρ (lay.after a) (lay'.after a')) (he : e.SeatsBut [d.name] ρ e')
    (hview : e'.view? d.name = env'.view? d.name) :
    Awaits ev J d shape leads row dims exts (s.declared ++ seen) ρ e e' (lay.after a)
      (lay'.after a') := by
  have hvalue : ∀ {y m}, env.value? y = some m → e.value? y = some m :=
    fun hy => h.tidy.value?_trace hc hfresh ht hy
  have hkeep : ev.Keeps env _ id := .of_value? hvalue
  have hslot : (lay'.after a')[J]? = lay'[J]? := by
    obtain ⟨ext, hext⟩ := hgrow'.after
    rw [hext, List.getElem?_append_left h.lt]
  exact {
    h with
    seats := hseats
    slot := by rw [hslot, h.slot]
    view := by rw [hview, h.view]
    tidy := h.tidy.trace hc ht
    names := he
    indices := h.indices.mono hvalue
    extents := by simpa using hkeep.extents h.extents
    inner := by simpa using hkeep.extents h.inner }

end Awaits

section simulation

variable {α β : Type} [Element α] [Element β] {R : α → β → Prop} {ev : Evaluator} {c : Catalog}
  {callee : Callee} {J : Nat} {d : Decl} {shape : List Nat} {row : Nat} {ρ : Nat → Seat}
  {env env' e : Env} {lay lay' : Layout}
variable {exts : List Nat} {leads : List (String × Word × Nat)} {seen : List String}

/-- The row that the indices lead to has room for the tensor. -/
theorem Slot.holds_row {ks : List Word} (h : Tensor.offsetFrom? 0 exts ks = some row) (ty : Scalar)
    (J : Nat) (shape : List Nat) :
    Slot.Holds ⟨ty, exts ++ shape, (exts ++ shape).prod⟩ ⟨J, ks, row * shape.prod⟩
      ⟨ty, shape, shape.prod⟩ where
  ty := rfl
  size := by
    obtain ⟨r, hr, hrow⟩ := Tensor.offsetFrom?_row h
    obtain rfl : row = r := by simpa using Option.mem_unique h (hrow 0)
    rw [List.prod_append, ← Nat.succ_mul]
    exact Nat.mul_le_mul_right _ hr
  offset {cs o} ho := by
    obtain ⟨r, -, hrow⟩ := Tensor.offsetFrom?_row ho
    obtain rfl : o = r := by simpa using Option.mem_unique ho (hrow 0)
    rw [Tensor.offsetFrom?_append h, hrow]
  same hks := by
    obtain rfl : ks = [] := hks
    cases exts with
    | nil => rfl
    | cons n exts => cases h

namespace Awaits

/-- The seats when the first run has allocated the tensor, which sits in the row. -/
abbrev rowSeats (J : Nat) (shape : List Nat) (leads : List (String × Word × Nat)) (row : Nat)
    (ρ : Nat → Seat) (lay lay' : Layout) : Nat → Seat :=
  put ρ lay.length 1 lay'.length (.within ⟨J, leads.map (·.2.1), row * shape.prod⟩)

theorem rowSeats_length :
    rowSeats J shape leads row ρ lay lay' lay.length =
      .within ⟨J, leads.map (·.2.1), row * shape.prod⟩ :=
  put_of_mem .refl (Nat.lt_succ_self _)

variable (hw : Awaits ev J d shape leads row [] [] seen ρ env env' lay lay')
include hw

theorem seats_row :
    Seats (rowSeats J shape leads row ρ lay lay') (lay ++ [⟨d.ty, shape, shape.prod⟩]) lay' := by
  change Seats (put _ _ [Slot.mk d.ty shape shape.prod].length _ _) _ _
  refine .put hw.seats.slot (fun _ _ => hw.seats.inj) (fun s hs => ?_) fun {o q} hq =>
    ⟨rfl, fun o' hq' => Location.place_inj (Eq.trans (Eq.symm hq') hq), fun i o' _ hq' => ?_⟩
  · obtain rfl := List.mem_singleton.1 hs
    exact ⟨_, hw.slot, Slot.holds_row hw.offset d.ty J shape⟩
  · obtain rfl : q = _ := hq
    exact hw.away hq' rfl

/-- The new buffer of the first run is the row of the larger tensor. -/
theorem opens_row :
    Env.Opens (rowSeats J shape leads row ρ lay lay') d.name (leads.map (·.1))
      (env.bind d.name (.buffer (.whole lay.length d.name shape))) env' := by
  refine ⟨⟨fun {x n} hx => ?_, fun {x v} hne hx => ?_⟩, fun {v} hv => ?_⟩
  · rw [Env.value?_bind] at hx
    split at hx
    · cases hx
    · exact hw.names.value hx
  · rw [Env.view?_bind_of_ne (Ne.symm (List.ne_of_not_mem_cons hne))] at hx
    exact (hw.names.put hw.tidy.plain.lt _ _ _).view hne hx
  · rw [Env.view?_bind, if_pos rfl] at hv
    obtain rfl := Option.some.inj hv
    refine ⟨leads.map (·.2), ⟨J, d.name, (leads.map (·.2.1)).map .fixed ++ shape.map .whole⟩,
      shape.map .whole, ?_, ?_, ?_, hw.indices.mono hw.names.value⟩
    · rw [List.map_map, List.map_map]
      rfl
    · rw [show (View.whole lay.length d.name shape).tensor = lay.length from rfl, rowSeats_length]
      exact ⟨rfl, rfl⟩
    · simp only [hw.view, List.map_append, List.map_map, List.nil_append]
      rfl

/-- What follows binds neither the buffer nor one of the variables, which are bound already. -/
theorem not_mem_binders (hfresh : FreshAll (d.name :: seen) rest) :
    ∀ x ∈ Block.binders rest, x ≠ d.name ∧ x ∉ leads.map (·.1) := by
  intro x hx
  refine ⟨fun heq => hfresh.not_mem_binders (by simp) (heq ▸ hx), fun hlead => ?_⟩
  obtain ⟨n, hn⟩ := hw.indices.value? hlead
  have hseen : x ∈ seen := by
    by_contra hx
    simp [Env.value?, hw.tidy.bound x hx] at hn
  exact hfresh.not_mem_binders (.tail _ hseen) hx

omit [Element β] in
/-- What the new tensor holds is related to what the row holds. -/
theorem seated_row {st : Store α} {st' : Store β} (hst : st.layout = lay) (hst' : st'.layout = lay')
    (hseated : Seated R ρ lay.length st st')
    (hblank : Blank R J (row * shape.prod) ((row + 1) * shape.prod) st') :
    Seated R (rowSeats J shape leads row ρ lay lay') (lay.length + 1)
      ((Action.alloc d.ty shape shape.prod).perform st) st' := by
  have hlen : st.length = lay.length := by rw [← Store.length_layout, hst]
  refine (hseated.append_left (Nat.le_of_eq hlen.symm) _).put (fun i o x q hle hlt hq hx => ?_) _
  obtain rfl : i = lay.length := by omega
  simp only [Store.at?, ← hlen, List.getElem?_concat_length, Option.bind_some] at hx
  obtain ⟨ho, rfl⟩ := Array.getElem?_eq_some_iff.1 hx
  rw [Array.size_replicate] at ho
  rw [Array.getElem_replicate]
  obtain rfl : q = (J, row * shape.prod + o) := hq
  obtain ⟨y, hy⟩ := Store.at?_of_slot (p := (J, row * shape.prod + o)) (by rw [hst']; exact hw.slot)
    (Nat.lt_of_lt_of_le (Nat.add_lt_add_left ho _) (Slot.holds_row hw.offset d.ty J shape).size)
  exact ⟨y, hy, hblank _ y (Nat.le_add_right _ _) (by rw [Nat.succ_mul]; omega) hy⟩

end Awaits

variable (hR : Element.Related R) (hc : callee.Closed) (hcallee : callee.Seated)
include hR hc hcallee

/-- **At the allocation.** The first run allocates a tensor, and the second one uses the row of the
larger tensor that its indices lead to. -/
theorem Awaits.allocate (h : Awaits ev J d shape leads row [] [] seen ρ env env' lay lay')
    (hfresh : FreshAll (d.name :: seen) rest)
    (ht : traceAll ev c callee env lay (.alloc d :: rest) = some (acts, e)) :
    ∃ acts' e', traceAll ev c callee env' lay'
        (mapAll (·.prependHere d.name ((leads.map (·.1)).map .var)) rest) = some (acts', e') ∧
      Fills R ρ J (row * shape.prod) ((row + 1) * shape.prod) lay lay' acts acts' := by
  obtain ⟨a, e₁, a', e₂, hs, hrest, ⟨⟩⟩ := traceAll_cons.1 ht
  obtain ⟨shape', size, hshape, hsize, ⟨⟩⟩ := trace_alloc.1 hs
  obtain rfl : shape = shape' := Option.mem_unique h.inner hshape
  obtain rfl := Tensor.eq_prod_of_size? hsize
  have hspared := h.not_mem_binders hfresh
  obtain ⟨acts', f, hf, hact, -⟩ := traceAll_opened hc hcallee h.seats_row
    (fun x hx => ⟨(hspared x hx).1, fun hlead => absurd hlead (hspared x hx).2⟩) h.opens_row hrest
  refine ⟨acts', f, hf, fun o hmem => ?_, fun {st st'} hst hst' hseated hblank => ?_⟩
  · -- of the larger tensor only the row has a place in the first run
    obtain ⟨p, hp, hplace⟩ := hact.writes _ hmem
    obtain hlt | heq | hgt := Nat.lt_trichotomy p.1 lay.length
    · rw [rowSeats, put_of_lt hlt] at hp
      exact absurd rfl (h.away hp)
    · obtain ⟨s, cs, hs, hcs⟩ := hplace (by rw [List.length_append, List.length_singleton]; omega)
      rw [heq, List.getElem?_concat_length] at hs
      obtain rfl := Option.some.inj hs
      rw [heq, rowSeats_length] at hp
      obtain rfl : o = row * shape.prod + p.2 := (Prod.mk.inj hp).2
      have ho := Tensor.lt_of_offsetFrom? hsize hcs
      rw [Nat.succ_mul]
      omega
    · rw [rowSeats, put_of_le hgt, lies_whole, Prod.mk.injEq] at hp
      have := h.lt
      omega
  · have hlay : Store.layout ((Action.alloc d.ty shape shape.prod).perform st) =
        lay ++ [⟨d.ty, shape, shape.prod⟩] := by
      rw [layout_performAction, hst]
      rfl
    have hend := hact.stores hR hlay hst'
      (by rw [List.length_append]; exact h.seated_row hst hst' hseated hblank)
    have hgrow := Nat.le_trans (trace_grows hc hs).2.length_le_after
      (traceAll_grows hc rest hrest).length_le_after
    exact (hend.mono hgrow).congr fun i hi => (put_of_lt hi).symm

/-- What follows a statement that fills the slice does not touch it. -/
theorem Fills.before_rest {lo hi : Nat} {a x b : List Action} {s' : Stmt}
    (hfills : Fills R ρ J lo hi lay lay' a x) (hclose : Closes lay a)
    (hs' : s'.trace ev c callee env' lay' = some (x, env')) (hdecl : s'.decl? = none)
    (hρ : Seats ρ lay lay') (haway : ∀ {i o q}, (ρ i).Lies o q → q.1 ≠ J)
    (henv : env.SeatsBut [d.name] ρ env') (hunbound : env.lookup d.name = none)
    (hname : d.name ∉ rest.binders)
    (hrest : traceAll ev c callee env (lay.after a) rest = some (b, e)) (lead : List String) :
    ∃ acts' e', traceAll ev c callee env' lay'
        (s' :: mapAll (·.prependHere d.name (lead.map .var)) rest) = some (acts', e') ∧
      Fills R ρ J lo hi lay lay' (a ++ b) acts' := by
  have hclose' : Closes lay' x := ((trace_grows hc hs').1 hdecl).1
  rw [hclose.after] at hrest
  obtain ⟨y, f, hy, hact, -⟩ := traceAll_unbound hc hcallee hρ henv hunbound hname hrest lead
  refine ⟨x ++ y, f, traceAll_cons.2 ⟨x, env', y, f, hs', ?_, rfl⟩,
    hfills.append hR haway hclose hclose' hact (traceAll_grows hc rest hrest)⟩
  rwa [hclose'.after]

/-- **The allocation is dropped.** Wherever the block has a trace, the block without the allocation
has one with the leading indices, and together they fill the slice that these lead to. The induction
is over the way to the allocation. -/
theorem Block.Dropped.fills (keeps : Header → Bool) {b b' : Block}
    (hdrop : Block.Dropped d loops b b')
    (hshare : (∀ y, R Element.undefined y) ∨ ∀ h ∈ loops, keeps h = true)
    (h : Awaits ev J d shape leads row (loops.filter keeps) exts seen ρ env env' lay lay')
    (hfresh : FreshAll seen b) (hname : d.name ∉ b'.binders) {lead : List String}
    (hlead : lead = leads.map (·.1) ++ (loops.filter keeps).map (·.var))
    (ht : traceAll ev c callee env lay b = some (acts, e)) :
    ∃ acts' e', traceAll ev c callee env' lay'
        (mapAll (·.prependHere d.name (lead.map .var)) b') = some (acts', e') ∧
      Fills R ρ J (row * (exts ++ shape).prod) ((row + 1) * (exts ++ shape).prod) lay lay'
        acts acts' := by
  have hunseen : d.name ∉ seen := fun hx => hfresh.not_mem_binders hx hdrop.mem_binders
  induction hdrop generalizing leads row exts seen ρ env env' e lay lay' acts with
  | @here rest =>
    obtain rfl : exts = [] := (Option.some.inj h.extents).symm
    obtain rfl : lead = leads.map (·.1) := by
      rw [hlead, List.filter_nil, List.map_nil, List.append_nil]
    exact h.allocate hR hc hcallee hfresh.2 ht
  | @next loops s rest rest' hdrop ih =>
    rw [binders_cons, List.mem_append, not_or] at hname
    obtain ⟨a, e₁, b, e₂, hs, hrest, ⟨⟩⟩ := traceAll_cons.1 ht
    have hdeclared : d.name ∉ s.declared ++ seen :=
      fun hx => hfresh.2.not_mem_binders hx hdrop.mem_binders
    have hone : d.name ∉ Block.binders [s] := by
      rw [binders_cons, List.mem_append, not_or]
      exact ⟨hname.1, by simp [binders, nested, nestedAll]⟩
    obtain ⟨x, f, hx, hact, he, hview⟩ := traceAll_unbound hc hcallee h.seats h.names
      (h.tidy.bound _ hunseen) hone (traceAll_singleton.2 hs) lead
    have hgrow' := traceAll_grows hc _ hx
    have hstate := h.trace hc hfresh.1 hs hgrow' hact.layouts he hview
    obtain ⟨y, f', hy, hfills⟩ := ih hshare hstate hfresh.2 hname.2 hlead hrest hdeclared
    refine ⟨x ++ y, f', ?_, hfills.behind hR h.away hact (trace_grows hc hs).2 hgrow' h.lt⟩
    exact traceAll_cons.2 ⟨x, f, y, f', traceAll_singleton.1 hx, hy, rfl⟩
  | @loop loops hd body body' rest hdrop ih =>
    rw [binders_cons, List.mem_append, not_or] at hname
    obtain ⟨hinner, hname⟩ := hname
    replace hinner : d.name ∉ Block.binders body' := fun hx => hinner (.tail _ hx)
    obtain ⟨a, e₁, b, e₂, hs, hrest, ⟨⟩⟩ := traceAll_cons.1 ht
    have hclose := (trace_grows hc hs).1 rfl
    obtain ⟨n, g, hn, hg, ⟨⟩⟩ := trace_loop.1 hs
    have hvar : hd.var ≠ d.name := by
      intro heq
      exact hfresh.1.2.not_mem_binders (heq ▸ (.head _)) hdrop.mem_binders
    have hunseen' : d.name ∉ hd.var :: seen :=
      List.not_mem_cons_of_ne_of_not_mem (Ne.symm hvar) hunseen
    have hshare' := hshare.imp_right fun hall x hx => hall x (.tail _ hx)
    -- one round, with the slice that it fills
    obtain ⟨los, his, hslices, hapart, hround⟩ : ∃ los his : Nat → Nat,
        (∀ k < n.toInt.toNat, row * (exts ++ shape).prod ≤ los k ∧
          his k ≤ (row + 1) * (exts ++ shape).prod) ∧
        ((∀ y, R Element.undefined y) ∨ ∀ j k, j < k → k < n.toInt.toNat → his j ≤ los k) ∧
        ∀ k < n.toInt.toNat, ∃ x, (∃ f, traceAll ev c callee (env'.turn hd k) lay'
            (mapAll (·.prependHere d.name (lead.map .var)) body') = some (x, f)) ∧
          Fills R ρ J (los k) (his k) lay lay' (g k) x := by
      by_cases hkeeps : keeps hd = true
      · rw [List.filter_cons_of_pos hkeeps] at h hlead
        obtain ⟨exts', rfl, -⟩ := h.extents_eq hn
        have hlo : row * (n.toInt.toNat :: exts' ++ shape).prod =
            row * n.toInt.toNat * (exts' ++ shape).prod := by
          rw [List.cons_append, List.prod_cons, Nat.mul_assoc]
        have hhi : (row + 1) * (n.toInt.toNat :: exts' ++ shape).prod =
            (row * n.toInt.toNat + n.toInt.toNat) * (exts' ++ shape).prod := by
          rw [List.cons_append, List.prod_cons, ← Nat.mul_assoc, Nat.succ_mul]
        rw [hlo, hhi]
        refine ⟨fun k => (row * n.toInt.toNat + k) * (exts' ++ shape).prod,
          fun k => (row * n.toInt.toNat + k + 1) * (exts' ++ shape).prod, fun k hk => ⟨?_, ?_⟩,
          .inr fun j k hj hk => ?_, fun k hk => ?_⟩
        · exact Nat.mul_le_mul_right _ (Nat.le_add_right _ _)
        · exact Nat.mul_le_mul_right _ (by omega)
        · exact Nat.mul_le_mul_right _ (by omega)
        · obtain ⟨f, hf⟩ := hg k hk
          obtain ⟨x, f', hx, hfills⟩ := ih hshare' (h.enter hfresh.1.1 hvar hn hk) hfresh.1.2
            hinner (by simp [hlead]) hf hunseen'
          exact ⟨x, ⟨f', hx⟩, hfills⟩
      · rw [List.filter_cons_of_neg hkeeps] at h hlead
        have hany := hshare.resolve_right fun hall => hkeeps (hall hd (.head _))
        refine ⟨fun _ => row * (exts ++ shape).prod, fun _ => (row + 1) * (exts ++ shape).prod,
          fun k hk => ⟨Nat.le_refl _, Nat.le_refl _⟩, .inl hany, fun k hk => ?_⟩
        obtain ⟨f, hf⟩ := hg k hk
        obtain ⟨x, f', hx, hfills⟩ := ih hshare' (h.bind_index hfresh.1.1 hvar _) hfresh.1.2
          hinner hlead hf hunseen'
        exact ⟨x, ⟨f', hx⟩, hfills⟩
    choose! g' hg' using hround
    have hclosed : ∀ k < n.toInt.toNat, Closes lay (scope lay (g k)) ∧
        Closes lay' (scope lay' (g' k)) := by
      intro k hk
      obtain ⟨f, hf⟩ := hg k hk
      obtain ⟨f', hf'⟩ := (hg' k hk).1
      exact ⟨scope_traceAll_closes hc hf, scope_traceAll_closes hc hf'⟩
    have hloop : ((Stmt.loop hd body').map (·.prependHere d.name (lead.map .var))).trace ev c callee
        env' lay' = some (_, env') :=
      trace_loop.2 ⟨n, g', Evaluator.keeps_opened h.names.value _ _ _ _ hn,
        fun k hk => (hg' k hk).1, rfl⟩
    exact (Fills.rounds h.lt hclosed (fun k hk => (hg' k hk).2.scope h.seats) hslices
      hapart).before_rest hR hc hcallee hclose.1 hloop rfl h.seats h.away h.names
      (h.tidy.bound _ hunseen) hname hrest lead
  | @guard loops cond body body' rest hdrop ih =>
    rw [binders_cons, List.mem_append, not_or] at hname
    obtain ⟨hinner, hname⟩ := hname
    replace hinner : d.name ∉ Block.binders body' := hinner
    obtain ⟨a, e₁, b, e₂, hs, hrest, ⟨⟩⟩ := traceAll_cons.1 ht
    have hclose := (trace_grows hc hs).1 rfl
    have hcond : ∀ {t}, ev.condition env cond = some t →
        ev.condition env' (cond.prependIndices d.name (lead.map .var)) = some t :=
      (Evaluator.keeps_opened h.names.value _ _).condition fun _ _ _ => rfl
    obtain ⟨hfalse, ⟨⟩⟩ | ⟨htrue, x, f, hx, ⟨⟩⟩ := trace_guard.1 hs
    · have hnothing : Fills R ρ J (row * (exts ++ shape).prod) ((row + 1) * (exts ++ shape).prod)
          lay lay' [] [] := .of_reseats hR h.away ((Simulation.seats ρ).nil h.seats) hclose.1.grows
      exact hnothing.before_rest hR hc hcallee hclose.1
        (trace_guard.2 (.inl ⟨hcond hfalse, rfl⟩)) rfl h.seats h.away h.names
        (h.tidy.bound _ hunseen) hname hrest lead
    · obtain ⟨y, f', hy, hfills⟩ := ih hshare h hfresh.1 hinner hlead hx hunseen
      exact (hfills.scope h.seats).before_rest hR hc hcallee hclose.1
        (trace_guard.2 (.inr ⟨hcond htrue, y, f', hy, rfl⟩)) rfl h.seats h.away h.names
        (h.tidy.bound _ hunseen) hname hrest lead

end simulation

end LoopNest
