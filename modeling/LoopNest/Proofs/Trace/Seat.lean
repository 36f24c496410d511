import LoopNest.Proofs.Trace.Independence
import LoopNest.Proofs.Trace.Simulate

/-!
# Tensors that sit elsewhere

Of two runs the second one may hold a tensor under another number, inside a larger tensor behind
leading coordinates, or as several: the elements that have the same coordinate in some dimension are
a tensor of their own there, without that dimension. It may also not hold it at all. `ρ` says of
every tensor of the first run where it sits in the second. A tensor that sits apart is seen through
views that are fixed to one part (`Seat.Shows`), and windows of such views are fixed to it as well.

The elements of the second run may be of another arithmetic, to which a relation `R` leads. `Reseats`
says of the actions of the two runs that they keep the tensors in their seats, with related elements.
Actions that do so are one way for two runs to go side by side (`Simulation.seats`).
-/

namespace LoopNest

/-! ## Two arithmetics -/

/-- All operations of the two arithmetics lead from related elements to related elements. -/
structure Element.Related {α β : Type} [Element α] [Element β] (R : α → β → Prop) : Prop where
  ofWord : ∀ n, R (Element.ofWord n) (Element.ofWord n)
  ofFloat : ∀ x, R (Element.ofFloat x) (Element.ofFloat x)
  add : ∀ {x y x' y'}, R x x' → R y y' → R (Element.add x y) (Element.add x' y')
  sub : ∀ {x y x' y'}, R x x' → R y y' → R (Element.sub x y) (Element.sub x' y')
  mul : ∀ {x y x' y'}, R x x' → R y y' → R (Element.mul x y) (Element.mul x' y')
  div : ∀ {x y x' y'}, R x x' → R y y' → R (Element.div x y) (Element.div x' y')
  mod : ∀ {x y x' y'}, R x x' → R y y' → R (Element.mod x y) (Element.mod x' y')
  neg : ∀ {x x'}, R x x' → R (Element.neg x) (Element.neg x')
  round : ∀ ty {x x'}, R x x' → R (Element.round ty x) (Element.round ty x')
  undefined : R Element.undefined Element.undefined

theorem Element.related_eq (α : Type) [Element α] : Element.Related (Eq : α → α → Prop) where
  ofWord _ := rfl
  ofFloat _ := rfl
  add hx hy := by rw [hx, hy]
  sub hx hy := by rw [hx, hy]
  mul hx hy := by rw [hx, hy]
  div hx hy := by rw [hx, hy]
  mod hx hy := by rw [hx, hy]
  neg hx := by rw [hx]
  round _ _ _ hx := by rw [hx]
  undefined := rfl

/-! ## Coordinates -/

namespace Tensor

variable {shape : List Nat} {flat o : Nat} {cs : List Word}

/-- Leaving out a dimension, an index that has a place has one in what is left. -/
theorem offsetFrom?_eraseIdx {dim : Nat} {k : Word} (h : offsetFrom? flat shape cs = some o)
    (hk : cs[dim]? = some k) :
    (∃ n, shape[dim]? = some n ∧ 0 ≤ k.toInt ∧ k.toInt.toNat < n) ∧
      ∃ o', offsetFrom? 0 (shape.eraseIdx dim) (cs.eraseIdx dim) = some o' := by
  have hin := within_of_offsetFrom? h
  constructor
  · obtain ⟨hlt, rfl⟩ := List.getElem?_eq_some_iff.1 hk
    have hlt' : dim < shape.length := hin.length_eq ▸ hlt
    obtain ⟨hlo, hhi⟩ := hin.get hlt hlt'
    exact ⟨shape[dim], List.getElem?_eq_getElem hlt', hlo, (Int.toNat_lt hlo).2 hhi⟩
  · rw [List.eraseIdx_eq_take_drop_succ, List.eraseIdx_eq_take_drop_succ]
    exact Within.exists_offset
      (List.rel_append (List.forall₂_take dim hin) (List.forall₂_drop (dim + 1) hin)) 0

end Tensor

namespace View

variable {dims dims' : List ViewDim} {index cs : List Word} {cuts : List Cut} {dim : Nat} {k : Word}

/-- A dimension that is fixed gives its coordinate, whatever the index. -/
theorem Finds.eraseIdx (h : Finds dims index cs) (hk : dims[dim]? = some (.fixed k)) :
    cs[dim]? = some k ∧ Finds (dims.eraseIdx dim) index (cs.eraseIdx dim) := by
  induction h generalizing dim with
  | nil => cases hk
  | fixed c h ih =>
    cases dim with
    | zero =>
      cases hk
      exact ⟨rfl, h⟩
    | succ dim => exact (ih hk).imp_right (.fixed c)
  | free hlo hhi hc _ ih =>
    cases dim with
    | zero => cases hk
    | succ dim => exact (ih hk).imp_right (.free hlo hhi hc)

/-- What is fixed stays so in every window. -/
theorem Narrows.eraseIdx (h : Narrows dims cuts dims') (hk : dims[dim]? = some (.fixed k)) :
    dims'[dim]? = some (.fixed k) ∧ Narrows (dims.eraseIdx dim) cuts (dims'.eraseIdx dim) := by
  induction h generalizing dim with
  | nil => cases hk
  | fixed c h ih =>
    cases dim with
    | zero =>
      cases hk
      exact ⟨rfl, h⟩
    | succ dim => exact (ih hk).imp_right (.fixed c)
  | point hlo hhi hc _ ih =>
    cases dim with
    | zero => cases hk
    | succ dim => exact (ih hk).imp_right (.point hlo hhi hc)
  | range hlo hle hhi hstart hcount _ ih =>
    cases dim with
    | zero => cases hk
    | succ dim => exact (ih hk).imp_right (.range hlo hle hhi hstart hcount)

theorem Finds.behind (h : Finds dims index cs) (lead : List Word) :
    Finds (lead.map .fixed ++ dims) index (lead ++ cs) := by
  induction lead with
  | nil => exact h
  | cons c lead ih => exact .fixed c ih

theorem Narrows.behind (h : Narrows dims cuts dims') (lead : List Word) :
    Narrows (lead.map .fixed ++ dims) cuts (lead.map .fixed ++ dims') := by
  induction lead with
  | nil => exact h
  | cons c lead ih => exact .fixed c ih

end View

/-! ## Seats -/

/-- Where a tensor lies: in the tensor `tensor`, behind the coordinates `lead`, from the offset
`base` on. -/
structure Location where
  tensor : Nat
  lead : List Word
  base : Nat

namespace Location

/-- A tensor of its own. -/
def alone (j : Nat) : Location := ⟨j, [], 0⟩

def place (l : Location) (o : Nat) : Place := (l.tensor, l.base + o)

@[simp] theorem place_alone (j o : Nat) : (alone j).place o = (j, o) := by
  simp [alone, place]

theorem place_inj {l : Location} {o o' : Nat} (h : l.place o = l.place o') : o = o' := by
  have hoffset := (Prod.mk.inj h).2
  omega

end Location

/-- A slot holds another one at a location. -/
structure Slot.Holds (s' : Slot) (l : Location) (s : Slot) : Prop where
  ty : s'.ty = s.ty
  size : l.base + s.size ≤ s'.size
  offset : ∀ {cs o}, Tensor.offsetFrom? 0 s.shape cs = some o →
    Tensor.offsetFrom? 0 s'.shape (l.lead ++ cs) = some (l.base + o)
  same : l.lead = [] → s' = s

theorem Slot.holds_alone (s : Slot) (j : Nat) : s.Holds (.alone j) s where
  ty := rfl
  size := Nat.le_of_eq (Nat.zero_add _)
  offset h := by simpa [Location.alone] using h
  same _ := rfl

/-- Where a tensor of one run sits in another: within a tensor, or apart along a dimension of its
shape, part `k` being the tensor `first + k`, or nowhere. -/
inductive Seat where
  | within (l : Location)
  | apart (shape : List Nat) (dim first : Nat)
  | gone

namespace Seat

/-- A tensor of its own. -/
abbrev whole (j : Nat) : Seat := .within (.alone j)

/-- The element at the offset `o` of the tensor lies at the place `q`. -/
def Lies : Seat → (o : Nat) → (q : Place) → Prop
  | within l, o, q => q = l.place o
  | apart shape dim first, o, q => ∃ cs k, Tensor.offsetFrom? 0 shape cs = some o ∧
      cs[dim]? = some k ∧ q.1 = first + k.toInt.toNat ∧
      Tensor.offsetFrom? 0 (shape.eraseIdx dim) (cs.eraseIdx dim) = some q.2
  | gone, _, _ => False

/-- The second view is one of the elements that the first one is of. A tensor that sits apart is seen
through views that are fixed to a part. -/
def Shows : Seat → View → View → Prop
  | within l, v, v' => v'.tensor = l.tensor ∧ v'.dims = l.lead.map .fixed ++ v.dims
  | apart _ dim first, v, v' => ∃ k, v.dims[dim]? = some (.fixed k) ∧
      v'.tensor = first + k.toInt.toNat ∧ v'.dims = v.dims.eraseIdx dim
  | gone, _, _ => False

/-- The layout has what it takes to seat a tensor there. All places in a part have an element. -/
def Holds (lay : Layout) : Seat → Slot → Prop
  | within l, s => ∃ s', lay[l.tensor]? = some s' ∧ s'.Holds l s
  | apart shape dim first, s => s.shape = shape ∧ ∀ n k, shape[dim]? = some n → k < n →
      ∃ size, lay[first + k]? = some ⟨s.ty, shape.eraseIdx dim, size⟩ ∧
        ∀ cs o, Tensor.offsetFrom? 0 (shape.eraseIdx dim) cs = some o → o < size
  | gone, _ => True

variable {j o : Nat} {q : Place} {v v' : View} {lay : Layout} {s : Slot}

@[simp] theorem lies_whole : (whole j).Lies o q ↔ q = (j, o) := by
  rw [whole, Lies, Location.place_alone]

theorem shows_whole (htensor : v'.tensor = j) (hdims : v'.dims = v.dims) :
    (whole j).Shows v v' := ⟨htensor, hdims⟩

theorem holds_whole : (whole j).Holds lay s ↔ lay[j]? = some s := by
  constructor
  · rintro ⟨s', hs', hholds⟩
    rwa [← hholds.same rfl]
  · exact fun hs => ⟨s, hs, s.holds_alone j⟩

variable {seat : Seat}

theorem Lies.unique {q' : Place} (h : seat.Lies o q) (h' : seat.Lies o q') : q = q' := by
  cases seat with
  | within l => exact Eq.trans h (Eq.symm h')
  | apart shape dim first =>
    obtain ⟨cs, k, hcs, hk, hq, ho⟩ := h
    obtain ⟨cs', k', hcs', hk', hq', ho'⟩ := h'
    obtain ⟨-, rfl⟩ := Tensor.offsetFrom?_inj hcs hcs'
    obtain rfl := Option.mem_unique hk hk'
    exact Prod.ext (hq.trans hq'.symm) (Option.mem_unique ho ho')
  | gone => exact h.elim

theorem Holds.mono (h : seat.Holds lay s) (ext : Layout) : seat.Holds (lay ++ ext) s := by
  have hleft : ∀ {j : Nat} {s : Slot}, lay[j]? = some s → (lay ++ ext)[j]? = some s := fun hs => by
    rw [List.getElem?_append_left (List.getElem?_eq_some_iff.1 hs).1, hs]
  cases seat with
  | within l =>
    obtain ⟨s', hs', hholds⟩ := h
    exact ⟨s', hleft hs', hholds⟩
  | apart shape dim first =>
    refine ⟨h.1, fun n k hn hk => ?_⟩
    obtain ⟨size, hslot, hsize⟩ := h.2 n k hn hk
    exact ⟨size, hleft hslot, hsize⟩
  | gone => trivial

/-- The tensor in which an element lies. -/
theorem Holds.slot (h : seat.Holds lay s) (hq : seat.Lies o q) :
    ∃ s', lay[q.1]? = some s' ∧ s'.ty = s.ty ∧ (o < s.size → q.2 < s'.size) := by
  cases seat with
  | within l =>
    obtain ⟨s', hs', hholds⟩ := h
    cases hq
    refine ⟨s', hs', hholds.ty, fun ho => ?_⟩
    exact Nat.lt_of_lt_of_le (Nat.add_lt_add_left ho _) hholds.size
  | apart shape dim first =>
    obtain ⟨cs, k, hcs, hk, hq, ho⟩ := hq
    obtain ⟨⟨n, hn, -, hlt⟩, -⟩ := Tensor.offsetFrom?_eraseIdx hcs hk
    obtain ⟨size, hslot, hsize⟩ := h.2 n _ hn hlt
    rw [← hq] at hslot
    exact ⟨_, hslot, rfl, fun _ => hsize _ _ ho⟩
  | gone => exact hq.elim

/-- An index leads to the same element through both views. -/
theorem Shows.place (h : seat.Shows v v') {lay' : Layout}
    (hholds : ∀ s, lay[v.tensor]? = some s → seat.Holds lay' s) {ns : List Word} {p : Place}
    (hp : v.place? lay ns = some p) :
    p.1 = v.tensor ∧ ∃ q, seat.Lies p.2 q ∧ v'.place? lay' ns = some q := by
  obtain ⟨cs, s, hcs, hs, ho, hp⟩ := View.place?_eq_some.1 hp
  refine ⟨hp, ?_⟩
  have hholds := hholds s hs
  cases seat with
  | within l =>
    obtain ⟨htensor, hdims⟩ := h
    obtain ⟨s', hs', hholds⟩ := hholds
    refine ⟨l.place p.2, rfl, View.place?_eq_some.2 ⟨l.lead ++ cs, s', ?_, by rwa [htensor],
      hholds.offset ho, htensor.symm⟩⟩
    rw [hdims]
    exact hcs.behind l.lead
  | apart shape dim first =>
    obtain ⟨k, hk, htensor, hdims⟩ := h
    obtain ⟨rfl, hparts⟩ := hholds
    obtain ⟨hcsk, herase⟩ := hcs.eraseIdx hk
    obtain ⟨⟨n, hn, -, hlt⟩, o', ho'⟩ := Tensor.offsetFrom?_eraseIdx ho hcsk
    obtain ⟨size, hslot, -⟩ := hparts n _ hn hlt
    exact ⟨(v'.tensor, o'), ⟨cs, k, ho, hcsk, htensor, ho'⟩,
      View.place?_eq_some.2 ⟨_, _, hdims ▸ herase, htensor ▸ hslot, ho', rfl⟩⟩
  | gone => exact h.elim

/-- Windows of the two views show the same elements. -/
theorem Shows.cut (h : seat.Shows v v') {cuts : List Cut} {dims : List ViewDim}
    (hcut : View.Narrows v.dims cuts dims) :
    ∃ dims', View.Narrows v'.dims cuts dims' ∧
      seat.Shows { v with dims := dims } { v' with dims := dims' } := by
  cases seat with
  | within l =>
    obtain ⟨htensor, hdims⟩ := h
    exact ⟨l.lead.map .fixed ++ dims, hdims ▸ hcut.behind l.lead, htensor, rfl⟩
  | apart shape dim first =>
    obtain ⟨k, hk, htensor, hdims⟩ := h
    obtain ⟨hk', hcut'⟩ := hcut.eraseIdx hk
    exact ⟨dims.eraseIdx dim, hdims ▸ hcut', k, hk', htensor, rfl⟩
  | gone => exact h.elim

end Seat

/-- The tensors of one layout sit in another, and no two elements share a place there. Tensors that
are allocated from here on correspond in order. -/
structure Seats (ρ : Nat → Seat) (lay lay' : Layout) : Prop where
  slot : ∀ {i s}, lay[i]? = some s → (ρ i).Holds lay' s
  fresh : ∀ k, ρ (lay.length + k) = .whole (lay'.length + k)
  inj : ∀ {i i' o o' q}, (ρ i).Lies o q → (ρ i').Lies o' q → i = i' ∧ o = o'

namespace Seats

variable {ρ : Nat → Seat} {lay lay' : Layout}

/-- All tensors may stay where they are. -/
theorem refl (lay : Layout) : Seats .whole lay lay where
  slot hs := Seat.holds_whole.2 hs
  fresh _ := rfl
  inj hq hq' := Prod.mk.inj ((Seat.lies_whole.1 hq).symm.trans (Seat.lies_whole.1 hq'))

theorem next (h : Seats ρ lay lay') : ρ lay.length = .whole lay'.length := h.fresh 0

theorem shows_next (h : Seats ρ lay lay') (x y : String) (shape : List Nat) :
    (ρ lay.length).Shows (.whole lay.length x shape) (.whole lay'.length y shape) := by
  rw [h.next]
  exact Seat.shows_whole rfl rfl

theorem push (h : Seats ρ lay lay') (s : Slot) : Seats ρ (lay ++ [s]) (lay' ++ [s]) where
  slot {i t} ht := by
    by_cases hlt : i < lay.length
    · rw [List.getElem?_append_left hlt] at ht
      exact (h.slot ht).mono _
    · obtain rfl : i = lay.length := by
        have hle := (List.getElem?_eq_some_iff.1 ht).1
        rw [List.length_append, List.length_singleton] at hle
        omega
      obtain rfl : s = t := by simpa using ht
      rw [h.next]
      exact Seat.holds_whole.2 (by simp)
  fresh k := by
    rw [List.length_append, List.length_append, Nat.add_assoc, Nat.add_assoc]
    exact h.fresh _
  inj := h.inj

/-- Elements of the tensors of a layout lie in tensors of the other one. -/
theorem lt (h : Seats ρ lay lay') {i o : Nat} {q : Place} (hi : i < lay.length)
    (hq : (ρ i).Lies o q) : q.1 < lay'.length := by
  obtain ⟨s', hs', -⟩ := (h.slot (List.getElem?_eq_getElem hi)).slot hq
  exact (List.getElem?_eq_some_iff.1 hs').1

end Seats

/-! ## Elements in their seats -/

section seated

variable {α β : Type} {R : α → β → Prop} {ρ : Nat → Seat}

/-- The elements of the first `n` tensors are related to those where these tensors sit. -/
def Seated (R : α → β → Prop) (ρ : Nat → Seat) (n : Nat) (st : Store α) (st' : Store β) : Prop :=
  ∀ i o x q, i < n → (ρ i).Lies o q → st.at? (i, o) = some x → ∃ y, st'.at? q = some y ∧ R x y

namespace Seated

variable {n : Nat} {st : Store α} {st' : Store β}

theorem mono {m : Nat} (h : Seated R ρ n st st') (hm : m ≤ n) : Seated R ρ m st st' :=
  fun i o x q hi => h i o x q (Nat.lt_of_lt_of_le hi hm)

theorem refl (n : Nat) (st : Store α) : Seated Eq .whole n st st := by
  intro i o x q _ hq hx
  obtain rfl := Seat.lies_whole.1 hq
  exact ⟨x, hx, rfl⟩

/-- At the end of a scope the tensors stay that were there before. -/
theorem take {lay lay' : Layout} (h : Seated R ρ lay.length st st') (hρ : Seats ρ lay lay') :
    Seated R ρ lay.length (st.take lay.length) (st'.take lay'.length) := by
  intro i o x q hi hq hx
  rw [Store.at?_take hi] at hx
  rw [Store.at?_take (hρ.lt hi hq)]
  exact h i o x q hi hq hx

/-- What is allocated in the first run is not looked at. -/
theorem append_left (h : Seated R ρ n st st') (hn : n ≤ st.length) (ext : Store α) :
    Seated R ρ n (st ++ ext) st' := by
  intro i o x q hi hq hx
  rw [Store.at?_append (Nat.lt_of_lt_of_le hi hn)] at hx
  exact h i o x q hi hq hx

theorem congr (h : Seated R ρ n st st') {ρ' : Nat → Seat} (hρ : ∀ i < n, ρ' i = ρ i) :
    Seated R ρ' n st st' :=
  fun i o x q hi hq => h i o x q hi (hρ i hi ▸ hq)

theorem take_eq_of_layout {st' : Store α} (h : Seated Eq .whole n st st')
    (hlay : Store.layout (st.take n) = Store.layout (st'.take n)) : st'.take n = st.take n := by
  refine (Store.eq_of_at? hlay fun p x hx => ?_).symm
  by_cases hp : p.1 < n
  · rw [Store.at?_take hp] at hx ⊢
    obtain ⟨y, hy, rfl⟩ := h p.1 p.2 x p hp (Seat.lies_whole.2 rfl) hx
    exact hy
  · rw [Store.at?_eq_none (by rw [List.length_take]; omega)] at hx
    cases hx

/-- The tensors that have kept their numbers are the same. -/
theorem take_eq {st' : Store α} (h : Seated Eq ρ n st st') (hρ : Seats ρ st.layout st'.layout)
    (hold : ∀ i < n, ρ i = .whole i) (hn : n ≤ st.length) : st'.take n = st.take n := by
  refine (h.congr fun i hi => (hold i hi).symm).take_eq_of_layout ?_
  rw [Store.layout, Store.layout, List.map_take, List.map_take, ← Store.layout, ← Store.layout]
  refine List.ext_getElem? fun i => ?_
  by_cases hi : i < n
  · have hlt : i < st.layout.length := by rw [Store.length_layout]; omega
    have hholds := hρ.slot (List.getElem?_eq_getElem hlt)
    rw [hold i hi, Seat.holds_whole] at hholds
    rw [List.getElem?_take_of_lt hi, List.getElem?_take_of_lt hi, hholds,
      List.getElem?_eq_getElem hlt]
  · rw [List.getElem?_take_eq_none (by omega), List.getElem?_take_eq_none (by omega)]

end Seated

end seated

/-- Lists that leave the same elements in the old tensors do the same to the end of the scope. -/
theorem Equiv.of_seated {lay : Layout} {a a' : List Action} (ha : Grows lay a) (ha' : Grows lay a')
    (h : ∀ {α : Type} [Element α] (st : Store α), st.layout = lay →
      Seated Eq .whole lay.length (perform a st) (perform a' st)) :
    Equiv lay (LoopNest.scope lay a) (LoopNest.scope lay a') := by
  refine ⟨by rw [ha.scope.after, ha'.scope.after], fun α _ st hst => ?_⟩
  have htake : ∀ x, perform (LoopNest.scope lay x) st = (perform x st).take lay.length := fun x => by
    simp [LoopNest.scope, Action.perform]
  rw [htake, htake]
  refine ((h st hst).take_eq_of_layout ?_).symm
  rw [← htake, ← htake, layout_perform, layout_perform, hst, ha.scope.after, ha'.scope.after]

/-- The values of the two resolved expressions are related wherever the elements are. -/
def Term.Reseats (ρ : Nat → Seat) (lay : Layout) (t t' : Term) : Prop :=
  ∀ {α β : Type} [Element α] [Element β] {R : α → β → Prop}, Element.Related R →
    ∀ {st : Store α} {st' : Store β}, st.layout = lay → Seated R ρ lay.length st st' →
      R (t.eval st) (t'.eval st')

/-- The lists of actions keep the tensors in their seats, with related elements. The second one
writes only where elements lie. -/
structure Reseats (ρ : Nat → Seat) (lay lay' : Layout) (acts acts' : List Action) : Prop where
  layouts : Seats ρ (lay.after acts) (lay'.after acts')
  writes : ∀ q ∈ written acts', ∃ p, (ρ p.1).Lies p.2 q ∧ (p.1 < lay.length → lay.HasPlace p)
  stores : ∀ {α β : Type} [Element α] [Element β] {R : α → β → Prop}, Element.Related R →
    ∀ {st : Store α} {st' : Store β}, st.layout = lay → st'.layout = lay' →
      Seated R ρ lay.length st st' →
        Seated R ρ (lay.after acts).length (perform acts st) (perform acts' st')

namespace Reseats

variable {ρ : Nat → Seat} {lay lay' : Layout} {a a' b b' : List Action}

theorem append (hgrow : Grows lay a) (h : Reseats ρ lay lay' a a')
    (h' : Reseats ρ (lay.after a) (lay'.after a') b b') :
    Reseats ρ lay lay' (a ++ b) (a' ++ b') := by
  refine ⟨by simpa using h'.layouts, fun q hq => ?_, fun {_ _ _ _ _} hR {st st'} hst hst' hs => ?_⟩
  · rw [written_append, List.mem_append] at hq
    obtain hq | hq := hq
    · exact h.writes q hq
    · obtain ⟨p, hp, hplace⟩ := h'.writes q hq
      refine ⟨p, hp, fun hlt => ?_⟩
      -- the tensors from before are still there
      obtain ⟨s, cs, hs, hcs⟩ := hplace (Nat.lt_of_lt_of_le hlt hgrow.length_le_after)
      obtain ⟨ext, hext⟩ := hgrow.after
      rw [hext, List.getElem?_append_left hlt] at hs
      exact ⟨s, cs, hs, hcs⟩
  · rw [perform_append, perform_append, Layout.after_append]
    exact h'.stores hR (by rw [layout_perform, hst]) (by rw [layout_perform, hst'])
      (h.stores hR hst hst' hs)

theorem scope (hρ : Seats ρ lay lay') (ha : Grows lay a) (ha' : Grows lay' a')
    (h : Reseats ρ lay lay' a a') : Reseats ρ lay lay' (scope lay a) (scope lay' a') := by
  refine ⟨by rwa [ha.scope.after, ha'.scope.after], fun q hq => ?_,
    fun {_ _ _ _ _} hR {st st'} hst hst' hs => ?_⟩
  · simp only [LoopNest.scope, written_append, List.mem_append] at hq
    exact h.writes q (hq.resolve_right (by simp [written, Action.written]))
  · rw [ha.scope.after]
    simp only [LoopNest.scope, perform_append, perform_cons, perform_nil, Action.perform]
    exact ((h.stores hR hst hst' hs).mono ha.length_le_after).take hρ

/-- A store of related values into the same element. -/
theorem store (hρ : Seats ρ lay lay') {p q : Place} (hp : lay.HasPlace p)
    (hq : (ρ p.1).Lies p.2 q) {t t' : Term} (ht : t.Reseats ρ lay t') (u : Update) :
    Reseats ρ lay lay' [.store u p t] [.store u q t'] := by
  refine ⟨hρ, fun q' hq' => ?_, fun {α β _ _ R} hR {st st'} hst hst' hseat => ?_⟩
  · obtain rfl : q' = q := by simpa [written, Action.written] using hq'
    exact ⟨p, hq, fun _ => hp⟩
  obtain ⟨s, -, hs, -⟩ := hp
  obtain ⟨s', hs', hty, -⟩ := (hρ.slot hs).slot hq
  have hvalue := ht hR hst hseat
  -- the same change on both sides, whatever is added or set
  have hmodify : ∀ (f : α → α) (f' : β → β), (∀ x y, R x y → R (f x) (f' y)) →
      Seated R ρ lay.length (st.modifyAt p f) (st'.modifyAt q f') := by
    intro f f' hf i o x r hi hr hx
    by_cases hio : (i, o) = p
    · subst hio
      obtain rfl := hr.unique hq
      obtain ⟨x₀, hx₀⟩ := Store.exists_at?_of_layout (st.layout_modifyAt _ f) hx
      obtain ⟨y, hy, hxy⟩ := hseat i o x₀ r hi hr hx₀
      have htype : (st.layout[(i, o).1]?).map (·.ty) = some s.ty := by rw [hst, hs]; rfl
      have htype' : (st'.layout[r.1]?).map (·.ty) = some s.ty := by rw [hst', hs', ← hty]; rfl
      rw [Store.at?_modifyAt_self htype hx₀] at hx
      obtain rfl := Option.some.inj hx
      exact ⟨_, Store.at?_modifyAt_self htype' hy f', hR.round s.ty (hf x₀ y hxy)⟩
    · have hne : r ≠ q := by
        rintro rfl
        obtain ⟨hi, ho⟩ := hρ.inj hr hq
        exact hio (Prod.ext hi ho)
      rw [Store.at?_modifyAt_of_ne hio] at hx
      rw [Store.at?_modifyAt_of_ne hne]
      exact hseat i o x r hi hr hx
  cases u with
  | set => exact hmodify _ _ fun _ _ _ => hvalue
  | add => exact hmodify _ _ fun _ _ hxy => hR.add hxy hvalue

/-- A store into a tensor that sits nowhere. -/
theorem drop_store (hρ : Seats ρ lay lay') {p : Place} (hp : ρ p.1 = .gone) (u : Update) (t : Term) :
    Reseats ρ lay lay' [.store u p t] [] := by
  refine ⟨hρ, by simp [written], fun {α β _ _ R} hR {st st'} hst hst' hseat i o x q hi hq hx => ?_⟩
  have hne : (i, o) ≠ p := by
    rintro rfl
    rw [hp] at hq
    exact hq
  refine hseat i o x q hi hq ?_
  cases u <;> rwa [perform_cons, perform_nil, Action.perform, Store.at?_modifyAt_of_ne hne] at hx

theorem alloc (hρ : Seats ρ lay lay') (ty : Scalar) (shape : List Nat) (size : Nat) :
    Reseats ρ lay lay' [.alloc ty shape size] [.alloc ty shape size] := by
  refine ⟨hρ.push _, by simp [written, Action.written],
    fun {α β _ _ R} hR {st st'} hst hst' hseat i o x q hi hq hx => ?_⟩
  have hlen : st.length = lay.length := by rw [← hst, Store.length_layout]
  have hlen' : st'.length = lay'.length := by rw [← hst', Store.length_layout]
  simp only [perform_cons, perform_nil, Action.perform] at hx ⊢
  by_cases hlt : i < lay.length
  · rw [Store.at?_append (by rwa [hlen])] at hx
    rw [Store.at?_append (hlen' ▸ hρ.lt hlt hq)]
    exact hseat i o x q hlt hq hx
  · -- the new tensor
    obtain rfl : i = lay.length := by
      simp only [Layout.after_cons, Layout.after_nil, Action.relayout, List.length_append,
        List.length_singleton] at hi
      omega
    rw [hρ.next, Seat.lies_whole] at hq
    subst hq
    simp only [Store.at?, ← hlen, ← hlen', List.getElem?_concat_length, Option.bind_some] at hx ⊢
    obtain ⟨ho, hx⟩ := Array.getElem?_eq_some_iff.1 hx
    rw [Array.size_replicate] at ho
    rw [Array.getElem_replicate] at hx
    exact ⟨Element.undefined, by simp [ho], hx ▸ hR.undefined⟩

/-- Where all tensors keep their numbers the lists do the same. -/
theorem equiv (h : Reseats .whole lay lay a a') : Equiv lay a a' := by
  have hlen : (lay.after a).length = (lay.after a').length := by
    simpa [Location.alone] using h.layouts.next
  have hlay : lay.after a = lay.after a' := by
    refine List.ext_getElem? fun i => ?_
    by_cases hi : i < (lay.after a).length
    · rw [Seat.holds_whole.1 (h.layouts.slot (List.getElem?_eq_getElem hi)),
        List.getElem?_eq_getElem hi]
    · rw [List.getElem?_eq_none (by omega), List.getElem?_eq_none (by omega)]
  refine ⟨hlay, fun α _ st hst => ?_⟩
  have hsize : ∀ x, (perform x st).length = (lay.after x).length := fun x => by
    rw [← Store.length_layout, layout_perform, hst]
  have hstores := (h.stores (Element.related_eq α) hst hst (.refl _ st)).take_eq
    (by rw [layout_perform, layout_perform, hst]; exact h.layouts) (fun _ _ => rfl)
    (Nat.le_of_eq (hsize a).symm)
  rwa [List.take_of_length_le (by rw [hsize, hlen]), List.take_of_length_le (by rw [hsize]),
    eq_comm] at hstores

end Reseats

/-- The environments have the same indices, and under all but some names views of the same
elements. -/
structure Env.SeatsBut (names : List String) (ρ : Nat → Seat) (env env' : Env) : Prop where
  value : ∀ {x n}, env.value? x = some n → env'.value? x = some n
  view : ∀ {x v}, x ∉ names → env.view? x = some v →
    ∃ v', env'.view? x = some v' ∧ (ρ v.tensor).Shows v v'

namespace Env.SeatsBut

variable {names : List String} {ρ : Nat → Seat} {env env' : Env}

theorem bind_index (h : env.SeatsBut names ρ env') (x : String) (n : Word) :
    Env.SeatsBut names ρ (env.bind x (.index n)) (env'.bind x (.index n)) where
  value hy := value?_bind_index.2 ((value?_bind_index.1 hy).imp_right (.imp_right h.value))
  view {y v} hne hy := by
    obtain ⟨hyx, hy⟩ := view?_bind_index.1 hy
    rw [view?_bind_of_ne hyx.symm]
    exact h.view hne hy

theorem bind_buffer (h : env.SeatsBut names ρ env') (x : String) {v v' : View}
    (hv : (ρ v.tensor).Shows v v') :
    Env.SeatsBut names ρ (env.bind x (.buffer v)) (env'.bind x (.buffer v')) where
  value hy := value?_bind_buffer.2 ((value?_bind_buffer.1 hy).imp_right h.value)
  view {y u} hne hy := by
    obtain ⟨hyx, rfl⟩ | ⟨hyx, hy⟩ := view?_bind_buffer.1 hy
    · exact ⟨v', view?_bind_buffer.2 (.inl ⟨hyx, rfl⟩), hv⟩
    · rw [view?_bind_of_ne (Ne.symm hyx)]
      exact h.view hne hy

end Env.SeatsBut

/-- The environments have the same indices, and under the same names views of the same elements. Only
the hidden names may stand for tensors that sit nowhere. -/
structure Env.Seats (ρ : Nat → Seat) (hidden : List String) (env env' : Env) : Prop
    extends Env.SeatsBut hidden ρ env env' where
  gone : ∀ {x v}, x ∈ hidden → env.view? x = some v → ρ v.tensor = .gone

namespace Env.Seats

variable {ρ : Nat → Seat} {hidden : List String} {env env' : Env}

theorem of_lookup (h : ∀ x, env'.lookup x = env.lookup x) : env.Seats .whole [] env' := by
  refine ⟨⟨fun {x n} hx => ?_, fun {x v} _ hv => ⟨v, ?_, Seat.shows_whole rfl rfl⟩⟩, nofun⟩
  · rwa [value?, h x]
  · rwa [view?, h x]

theorem refl (env : Env) : env.Seats .whole [] env := of_lookup fun _ => rfl

theorem bind_index (h : env.Seats ρ hidden env') (x : String) (n : Word) :
    Env.Seats ρ hidden (env.bind x (.index n)) (env'.bind x (.index n)) where
  toSeatsBut := h.toSeatsBut.bind_index x n
  gone {y v} hmem hy := by
    rw [view?_bind] at hy
    split at hy
    · cases hy
    · exact h.gone hmem hy

theorem bind_buffer (h : env.Seats ρ hidden env') {x : String} (hx : x ∉ hidden) {v v' : View}
    (hv : (ρ v.tensor).Shows v v') :
    Env.Seats ρ hidden (env.bind x (.buffer v)) (env'.bind x (.buffer v')) where
  toSeatsBut := h.toSeatsBut.bind_buffer x hv
  gone {y u} hmem hy := by
    have hne : x ≠ y := fun heq => hx (heq ▸ hmem)
    rw [view?_bind_of_ne hne] at hy
    exact h.gone hmem hy

end Env.Seats

/-- Two runs with tensors in other seats. -/
def Simulation.seats (ρ : Nat → Seat) : Simulation where
  layouts := Seats ρ
  places p q := (ρ p.1).Lies p.2 q
  views v v' := (ρ v.tensor).Shows v v'
  envs := Env.Seats ρ []
  terms lay _ := Term.Reseats ρ lay
  actions := Reseats ρ
  view_place hρ hv hp := by
    obtain ⟨hnumber, q, hq, hplace⟩ := hv.place (fun _ => hρ.slot) hp
    exact ⟨q, hnumber ▸ hq, hplace⟩
  view_cut hv hdims := hv.cut hdims
  envs_nil := ⟨⟨nofun, nofun⟩, nofun⟩
  envs_bind _ henv hv := henv.bind_buffer (List.not_mem_nil) hv
  word n _ _ _ _ _ hR _ _ _ _ := hR.ofWord n
  float x _ _ _ _ _ hR _ _ _ _ := hR.ofFloat x
  load {lay lay' p q s} hρ hq hs hsize := by
    obtain ⟨s', hs', -, hsize'⟩ := (hρ.slot hs).slot hq
    refine ⟨⟨s', hs', hsize' hsize⟩, fun {_ _ _ _ _} hR {st st'} hst hseat => ?_⟩
    -- the element that is read is there
    obtain ⟨x, hx⟩ := Store.at?_of_slot (by rw [hst]; exact hs) hsize
    obtain ⟨y, hy, hxy⟩ := hseat p.1 p.2 x q (List.getElem?_eq_some_iff.1 hs).1 hq hx
    rw [Term.eval, Term.eval, hx, hy]
    exact hxy
  binary op hl hr _ _ _ _ _ hR _ _ hst hseat := by
    have hxl := hl hR hst hseat
    have hxr := hr hR hst hseat
    cases op with
    | add => exact hR.add hxl hxr
    | sub => exact hR.sub hxl hxr
    | mul => exact hR.mul hxl hxr
    | div => exact hR.div hxl hxr
    | mod => exact hR.mod hxl hxr
    | _ => exact hR.undefined
  neg ht _ _ _ _ _ hR _ _ hst hseat := hR.neg (ht hR hst hseat)
  nil hρ := ⟨hρ, by simp [written], fun _ _ _ _ _ hs => hs⟩
  after _ h := h.layouts
  append := Reseats.append
  scope := Reseats.scope
  store u hρ hp hq ht := .store hρ hp hq ht u
  alloc ty shape size hρ := .alloc hρ ty shape size

end LoopNest
