import LoopNest.Proofs.Binding
import LoopNest.Proofs.Invariant
import LoopNest.Proofs.Trace.Seat

/-!
# Views stay inside their tensors

A view is of a tensor that is there, and its dimensions are parts of the dimensions of that tensor
(`View.Inside`). Windows keep that: a point lies inside the range that it is taken from, and so does
an interval. So it is an invariant of runs (`views_invariant`), and in all their states an index into
a view leads to an element of the tensor or is out of bounds for the view, with no other way to fail
(`Proc.Visits.views_inside`).
-/

namespace LoopNest

open Evaluator

variable {env : Env} {v : View} {x : String}

theorem except_bind_eq_error {ε β γ : Type} {x : Except ε β} {f : β → Except ε γ} {e : ε} :
    (x >>= f) = .error e ↔ x = .error e ∨ ∃ b, x = .ok b ∧ f b = .error e := by
  cases x with
  | ok b | error e => simp [bind, Except.bind]

/-! ## Dimensions -/

/-- The coordinates of the dimension are among `n`. -/
def ViewDim.Inside : ViewDim → Nat → Prop
  | .fixed c, n => 0 ≤ c.toInt ∧ c.toInt < n
  | .free offset extent, n =>
    0 ≤ offset.toInt ∧ 0 ≤ extent.toInt ∧ offset.toInt + extent.toInt ≤ n

section dims

variable {dims dims' : List ViewDim} {shape : List Nat}

theorem View.Finds.within {index cs : List Word} (h : View.Finds dims index cs)
    (hdims : List.Forall₂ ViewDim.Inside dims shape) : Tensor.Within cs shape := by
  induction h generalizing shape with
  | nil =>
    cases hdims
    exact .nil
  | fixed c _ ih =>
    obtain _ | ⟨hc, hdims⟩ := hdims
    exact .cons hc (ih hdims)
  | free hlo hhi hc _ ih =>
    obtain _ | ⟨⟨hoffset, -, hextent⟩, hdims⟩ := hdims
    exact .cons ⟨by omega, by omega⟩ (ih hdims)

/-- The step: a window of a view that is inside is inside. -/
theorem View.Narrows.inside {cuts : List Cut} (h : View.Narrows dims cuts dims')
    (hdims : List.Forall₂ ViewDim.Inside dims shape) : List.Forall₂ ViewDim.Inside dims' shape := by
  induction h generalizing shape with
  | nil =>
    cases hdims
    exact .nil
  | fixed c _ ih =>
    obtain _ | ⟨hc, hdims⟩ := hdims
    exact .cons hc (ih hdims)
  | point hlo hhi hc _ ih =>
    obtain _ | ⟨⟨hoffset, -, hextent⟩, hdims⟩ := hdims
    exact .cons ⟨by omega, by omega⟩ (ih hdims)
  | range hlo hle hhi hstart hcount _ ih =>
    obtain _ | ⟨⟨hoffset, -, hextent⟩, hdims⟩ := hdims
    exact .cons ⟨by omega, by omega, by omega⟩ (ih hdims)

/-! No sum of an offset and an index is out of range where the extents are words. -/

theorem ViewDim.Inside.exists_add? {offset extent i : Word} {n : Nat}
    (h : (ViewDim.free offset extent).Inside n) (hn : n < 2 ^ 63) (hlo : 0 ≤ i.toInt)
    (hhi : i.toInt ≤ extent.toInt) : ∃ c, noOverflow (Word.add? offset i) = .ok c := by
  obtain ⟨hoffset, -, hextent⟩ := h
  cases hsum : Word.add? offset i with
  | some c => exact ⟨c, rfl⟩
  | none =>
    rw [Word.add?, Word.ofInt?_eq_none] at hsum
    omega

variable (hshape : ∀ n ∈ shape, n < 2 ^ 63) (hdims : List.Forall₂ ViewDim.Inside dims shape)

include hshape hdims

theorem View.coordinatesFrom_cases (outside : EvalError) (index : List Word) :
    (∃ cs, coordinatesFrom outside dims index = .ok cs) ∨
      coordinatesFrom outside dims index = failWith outside := by
  fun_induction coordinatesFrom outside dims index generalizing shape with
  | case1 => exact .inl ⟨[], rfl⟩
  | case2 c dims index ih =>
    obtain _ | ⟨-, hdims⟩ := hdims
    obtain ⟨cs, hcs⟩ | hcs := ih (List.forall_mem_cons.1 hshape).2 hdims <;> rw [hcs]
    · exact .inl ⟨c :: cs, rfl⟩
    · exact .inr rfl
  | case3 | case4 => exact .inr rfl
  | case5 offset extent dims i index hin ih =>
    obtain _ | ⟨hdim, hdims⟩ := hdims
    obtain ⟨hn, hshape⟩ := List.forall_mem_cons.1 hshape
    obtain ⟨hlo, hhi⟩ := Word.not_outside.1 hin
    obtain ⟨c, hc⟩ := hdim.exists_add? hn hlo (Int.le_of_lt hhi)
    rw [hc]
    obtain ⟨cs, hcs⟩ | hcs := ih hshape hdims <;> rw [hcs]
    · exact .inl ⟨c :: cs, rfl⟩
    · exact .inr rfl

/-- Where a window overflows, one of its expressions does. -/
theorem Env.overflow_of_narrow {w : Window} {ds : List WindowDim}
    (h : env.narrow w dims ds = .error .overflow) :
    ∃ e ∈ ds.flatMap (·.exprs), env.index e = .error .overflow := by
  fun_induction Env.narrow env w dims ds generalizing shape with
  | case1 | case2 | case4 => cases h
  | case3 ds c dims ih =>
    obtain _ | ⟨-, hdims⟩ := hdims
    obtain h | ⟨rest, -, h⟩ := except_bind_eq_error.1 h
    · exact ih (List.forall_mem_cons.1 hshape).2 hdims h
    · cases h
  | case5 offset extent dims e ds ih =>
    obtain _ | ⟨hdim, hdims⟩ := hdims
    obtain ⟨hn, hshape⟩ := List.forall_mem_cons.1 hshape
    obtain h | ⟨p, -, h⟩ := except_bind_eq_error.1 h
    · exact ⟨e, by simp [WindowDim.exprs], h⟩
    · split at h
      · cases h
      next hin =>
      obtain ⟨hlo, hhi⟩ := Word.not_outside.1 hin
      obtain ⟨c, hc⟩ := hdim.exists_add? hn hlo (Int.le_of_lt hhi)
      rw [hc] at h
      obtain ⟨⟨⟩⟩ | ⟨_, -, h⟩ := except_bind_eq_error.1 h
      obtain h | ⟨rest, -, h⟩ := except_bind_eq_error.1 h
      · obtain ⟨e', he', h⟩ := ih hshape hdims h
        exact ⟨e', List.mem_append_right _ he', h⟩
      · cases h
  | case6 offset extent dims lo hi ds ih =>
    obtain _ | ⟨hdim, hdims⟩ := hdims
    obtain ⟨hn, hshape⟩ := List.forall_mem_cons.1 hshape
    obtain h | ⟨a, -, h⟩ := except_bind_eq_error.1 h
    · exact ⟨lo, by simp [WindowDim.exprs], h⟩
    obtain h | ⟨b, -, h⟩ := except_bind_eq_error.1 h
    · exact ⟨hi, by simp [WindowDim.exprs], h⟩
    split at h
    · cases h
    next hin =>
    obtain ⟨hlo, hle, hhi⟩ := Word.not_outside_range.1 hin
    -- both ends are within the extent, so the new offset and the new extent are words
    obtain ⟨start, hstart⟩ := hdim.exists_add? hn hlo (Int.le_trans hle hhi)
    obtain ⟨count, hcount⟩ : ∃ count, noOverflow (Word.sub? b a) = .ok count := by
      cases hdiff : Word.sub? b a with
      | some count => exact ⟨count, rfl⟩
      | none =>
        rw [Word.sub?, Word.ofInt?_eq_none] at hdiff
        have hb := b.toInt_mem
        omega
    rw [hstart, hcount] at h
    obtain ⟨⟨⟩⟩ | ⟨_, -, h⟩ := except_bind_eq_error.1 h
    obtain ⟨⟨⟩⟩ | ⟨_, -, h⟩ := except_bind_eq_error.1 h
    obtain h | ⟨rest, -, h⟩ := except_bind_eq_error.1 h
    · obtain ⟨e', he', h⟩ := ih hshape hdims h
      exact ⟨e', List.mem_append_right _ he', h⟩
    · cases h

end dims

/-! ## Views -/

/-- The tensor has as many elements as its shape says, and its extents are words. -/
structure Slot.Sound (s : Slot) : Prop where
  size : s.size = s.shape.prod
  word : ∀ n ∈ s.shape, n < 2 ^ 63

/-- The view is of a tensor that is there, and inside it. -/
def View.Inside (v : View) (lay : Layout) : Prop :=
  ∃ s, lay[v.tensor]? = some s ∧ s.Sound ∧ List.Forall₂ ViewDim.Inside v.dims s.shape

theorem View.inside_whole {s : Slot} (hs : s.Sound) (lay : Layout) (x : String) :
    (View.whole lay.length x s.shape).Inside (lay ++ [s]) := by
  refine ⟨s, by simp [whole], hs, ?_⟩
  rw [whole, List.forall₂_map_left_iff, List.forall₂_same]
  intro n hn
  have hword : (Int64.ofNat n).toInt = n := by
    have := hs.word n hn
    rw [← Int64.ofInt_eq_ofNat, Int64.toInt_ofInt_of_le (by omega) (by omega)]
  simp only [ViewDim.Inside, hword, Int64.toInt_zero]
  omega

theorem View.Inside.mono {lay lay' : Layout} (h : v.Inside lay) (hlay : lay <+: lay') :
    v.Inside lay' := by
  obtain ⟨s, hs, hsound⟩ := h
  obtain ⟨rest, rfl⟩ := hlay
  exact ⟨s, by rw [List.getElem?_append_left (List.getElem?_eq_some_iff.1 hs).1, hs], hsound⟩

/-- All views that names stand for are inside. -/
def Env.Inside (env : Env) (lay : Layout) : Prop := ∀ x v, env.view? x = some v → v.Inside lay

theorem Env.forall_view_bind {P : View → Prop} (h : ∀ x v, env.view? x = some v → P v) (x : String)
    {b : Binding} (hb : ∀ v, b = .buffer v → P v) :
    ∀ y v, (env.bind x b).view? y = some v → P v := by
  intro y v hv
  rw [Env.view?_bind] at hv
  split at hv
  · cases b with
    | index n => cases hv
    | buffer u => exact hb v (congrArg Binding.buffer (Option.some.inj hv))
  · exact h y v hv

/-- The body of a template knows the views of the windows and no others. -/
theorem Catalog.view?_of_enter {c : Catalog} {inner : Env} {name : String} {args : List Window}
    {body : Block} (h : c.enter env name args = .ok (inner, body)) (hv : inner.view? x = some v) :
    ∃ w ∈ args, Evaluator.checked.window env w = some v := by
  obtain ⟨t, -, -, h, -⟩ := Catalog.enter_eq_ok.1 h
  have hinner := (Evaluator.checked.enter_tallies _ (List.Subset.refl _)).eq_some h
  obtain ⟨pw, hpw, hw⟩ | hnil := Evaluator.view?_of_enter hinner hv
  · exact ⟨pw.2, (List.of_mem_zip hpw).2, hw⟩
  · cases hnil

theorem Env.lt_of_extents {buf : String} {es : List Expr} {shape : List Nat}
    (h : env.extents buf es = .ok shape) : ∀ n ∈ shape, n < 2 ^ 63 := by
  have hext := extents_eq_some.1 ((checked.extents_tallies _ (List.Subset.refl _)).eq_some h)
  intro n hn
  obtain ⟨e, -, w, -, -, rfl⟩ := exists_of_forall₂ hext hn
  have hw := w.toInt_mem
  omega

/-- A new tensor is bound whole. -/
theorem Env.Inside.bind_whole {lay : Layout} (h : env.Inside lay) {s : Slot} (hs : s.Sound)
    (x : String) : (env.bind x (.buffer (.whole lay.length x s.shape))).Inside (lay ++ [s]) := by
  refine Env.forall_view_bind (fun y v hv => (h y v hv).mono (List.prefix_append ..)) x fun v hv => ?_
  cases hv
  exact View.inside_whole hs lay x

/-- **Runs keep all views inside their tensors.** -/
theorem views_invariant {α : Type} [Element α] (c : Catalog) :
    Invariant c Env.Inside (fun _ : Store α => True) where
  grow h hlay x v hv := (h x v hv).mono hlay
  bind_index x n h := Env.forall_view_bind h x nofun
  bind_whole {env lay d shape t} h hshape ht := by
    obtain ⟨size, hsize, ⟨⟩⟩ := Option.bind_eq_some_iff.1 ht
    have hsound : Slot.Sound ⟨d.ty, shape, (Array.replicate size (Element.undefined : α)).size⟩ :=
      ⟨by simp [Tensor.eq_prod_of_size? hsize], Env.lt_of_extents hshape⟩
    exact h.bind_whole hsound d.name
  enter h hin x v hv := by
    obtain ⟨w, -, hw⟩ := Catalog.view?_of_enter hin hv
    obtain ⟨base, cuts, dims, hbase, -, hdims, rfl⟩ := window_eq_some.1 hw
    obtain ⟨s, hs, hsound, hinside⟩ := h w.buf base hbase
    exact ⟨s, hs, hsound, hdims.inside hinside⟩
  alloc _ _ := trivial
  assign _ _ _ _ := trivial
  release _ _ _ := trivial

variable {α : Type}

/-- The start: parameters are bound to whole tensors. -/
theorem Args.inside_of_bindParams {args : Args α} {params : List Param} {frame : Frame α}
    (hargs : ∀ b ∈ args.buffers, b.2.data.size = b.2.shape.prod)
    (h : args.bindParams params = .ok frame) : frame.env.Inside frame.store.layout := by
  refine keeps_of_bindParams (P := fun _ f => f.env.Inside f.store.layout) h
    (fun x v hv => by cases hv) fun hq hf => ?_
  cases hq with
  | size => exact Env.forall_view_bind hf _ nofun
  | @buffer d t hshape _ ht _ =>
    obtain ⟨l, l', hl, -⟩ := List.lookup_eq_some_iff.1 ht
    have hsize := hargs (d.name, t) (by rw [hl]; simp)
    have hsound : t.slot.Sound := ⟨hsize, Env.lt_of_extents hshape⟩
    simpa [Store.layout, Tensor.slot] using hf.bind_whole hsound d.name

/-! ## The states of a run -/

/-- Where a view is inside, an index that it takes has an element. -/
theorem View.Inside.exists_place {st : Store α} (h : v.Inside st.layout) {idx : List Expr}
    {cs : List Word} (haddress : env.address x idx = .ok (v, cs)) :
    (∃ a, st.load env x idx = .ok a) ∧ ∃ place, st.locate env x idx = .ok place := by
  obtain ⟨s, hs, hsound, hdims⟩ := h
  rw [Store.layout, List.getElem?_map, Option.map_eq_some_iff] at hs
  obtain ⟨t, ht, rfl⟩ := hs
  obtain ⟨-, ns, -, hfinds⟩ := Env.address_eq_ok.1 haddress
  obtain ⟨o, ho⟩ := (hfinds.within hdims).exists_offset 0
  have hplace : st.locate env x idx = .ok (v.tensor, o) :=
    Store.locate_eq_ok.2 ⟨v, cs, t, haddress, ht, ho, rfl⟩
  have hsize : t.data.size = t.shape.prod := hsound.size
  have hlt : o < t.data.size := hsize ▸ Tensor.lt_prod_of_offsetFrom? ho
  refine ⟨⟨t.data[o], Store.load_eq_ok.2 ⟨_, hplace, ?_⟩⟩, _, hplace⟩
  simp [Store.at?, ht, hlt]

/-- **Views never dangle or escape.** Let the tensors of the arguments have as many elements as their
shapes say. In every state of a run, whatever stands for a view is a part of a tensor that is there,
with one dimension for each dimension of the tensor and inside it. So an index leads to coordinates
inside the tensor or is refused by the view itself; taking a window does not overflow beyond its
expressions; and an access whose coordinates are known finds its element. -/
theorem Proc.Visits.views_inside [Element α] {p : Proc} {c : Catalog} {args : Args α} {env : Env}
    {st : Store α} (hargs : ∀ b ∈ args.buffers, b.2.data.size = b.2.shape.prod)
    (h : p.Visits c args env st) {x : String} {v : View} (hv : env.view x = .ok v) :
    ∃ t, st[v.tensor]? = some t ∧ List.Forall₂ ViewDim.Inside v.dims t.shape ∧
      (∀ index, (∃ cs, v.coordinates index = .ok cs ∧ Tensor.Within cs t.shape) ∨
        v.coordinates index = failWith (.outside v.name index)) ∧
      (∀ w : Window, w.buf = x → env.window w = .error .overflow →
        ∃ e ∈ w.exprs, env.index e = .error .overflow) ∧
      ∀ idx cs, env.address x idx = .ok (v, cs) →
        (∃ a, st.load env x idx = .ok a) ∧ ∃ place, st.locate env x idx = .ok place := by
  have hinside : v.Inside st.layout :=
    (h.keeps (views_invariant c) fun frame hframe =>
      ⟨Args.inside_of_bindParams hargs hframe, trivial⟩).1 x v (Env.view_eq_ok.1 hv)
  obtain ⟨s, hs, hsound, hdims⟩ := id hinside
  rw [Store.layout, List.getElem?_map, Option.map_eq_some_iff] at hs
  obtain ⟨t, ht, rfl⟩ := hs
  refine ⟨t, ht, hdims, fun index => ?_, ?_, fun idx cs haddress => hinside.exists_place haddress⟩
  · obtain ⟨cs, hcs⟩ | hout : (∃ cs, v.coordinates index = .ok cs) ∨
        v.coordinates index = failWith (.outside v.name index) := by
      unfold View.coordinates
      split
      · exact .inr rfl
      · exact View.coordinatesFrom_cases hsound.word hdims _ index
    · exact .inl ⟨cs, hcs, (View.coordinates_eq_ok.1 hcs).within hdims⟩
    · exact .inr hout
  · rintro w rfl hw
    rw [Env.window, hv] at hw
    obtain ⟨⟨⟩⟩ | ⟨base, ⟨⟩, hw⟩ := except_bind_eq_error.1 hw
    obtain hw | ⟨dims, -, hw⟩ := except_bind_eq_error.1 hw
    · exact Env.overflow_of_narrow hsound.word hdims hw
    · cases hw

/-- Clear one element. -/
def clearCell : Proc where
  name := "clear_one"
  params := [.buffer ⟨"x", .f32, [.int 1], .dram⟩]
  body := [.store .set "x" [.int 0] (.int 0)]

/-- Clear an element of the second row. -/
def clearInRow : Proc where
  name := "clear_in_row"
  params := [.buffer ⟨"A", .f32, [.int 2, .int 2], .dram⟩]
  body := [.call "clear_one" [⟨"A", [.point (.int 1), .interval (.int 0) (.int 1)]⟩]]

/-- The parameter of the template is a view inside the tensor of the caller. -/
theorem Proc.clearInRow_inside :
    let args : Args Float := ⟨[], [("A", ⟨.f32, [2, 2], #[1, 2, 3, 4]⟩)]⟩
    let v : View := ⟨0, "A", [.fixed 1, .free 0 1]⟩
    ∃ env st t, clearInRow.Visits ⟨[clearCell]⟩ args env st ∧ env.view "x" = .ok v ∧
      st[0]? = some t ∧ List.Forall₂ ViewDim.Inside v.dims t.shape ∧
      ∀ idx cs, env.address "x" idx = .ok (v, cs) → ∃ a, st.load env "x" idx = .ok a := by
  intro args v
  have hvisits : clearInRow.Visits ⟨[clearCell]⟩ args [("x", .buffer v)]
      [⟨.f32, [2, 2], #[1, 2, 3, 4]⟩] :=
    ⟨_, 1, rfl, .inl (.call rfl .here)⟩
  obtain ⟨t, ht, hdims, -, -, hplace⟩ :=
    Proc.Visits.views_inside (by simp [args]) hvisits (x := "x") (v := v) rfl
  exact ⟨_, _, t, hvisits, rfl, ht, hdims, fun idx cs h => (hplace idx cs h).1⟩

end LoopNest
