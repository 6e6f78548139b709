import Orderbook.Domain
import Orderbook.Library.Ownership

namespace Orderbook.SlotPool

open Domain Library.Ownership

/-- An iterator into `orders_`, as the position of its element: the program only
dereferences iterators and compares them. -/
abbrev OrderIterator := Nat

/-- `OrderSlotPool` with the container it refers to. `storage` is `orders_` of the
book; the head of `freeList` is the back of `freeList_`. -/
structure OrderSlotPool where
  storage : List Order := []
  freeList : List OrderIterator := []
  deriving DecidableEq

def get (p : OrderSlotPool) (it : OrderIterator) : Order := p.storage.getD it {}

def set (p : OrderSlotPool) (it : OrderIterator) (o : Order) : OrderSlotPool :=
  { p with storage := p.storage.set it o }

def allocate (p : OrderSlotPool) : OrderIterator × OrderSlotPool :=
  match p.freeList with
  | it :: rest => (it, { p with freeList := rest })
  | [] => (p.storage.length, { p with storage := p.storage ++ [{}] })

def release (p : OrderSlotPool) (it : OrderIterator) : OrderSlotPool :=
  { p with freeList := it :: p.freeList }

@[simp] theorem set_freeList (p : OrderSlotPool) (it : OrderIterator) (o : Order) :
    (set p it o).freeList = p.freeList := rfl

@[simp] theorem set_length (p : OrderSlotPool) (it : OrderIterator) (o : Order) :
    (set p it o).storage.length = p.storage.length := List.length_set

@[simp] theorem release_storage (p : OrderSlotPool) (it : OrderIterator) :
    (release p it).storage = p.storage := rfl

@[simp] theorem release_freeList (p : OrderSlotPool) (it : OrderIterator) :
    (release p it).freeList = it :: p.freeList := rfl

@[simp] theorem get_release (p : OrderSlotPool) (it jt : OrderIterator) :
    get (release p it) jt = get p jt := rfl

theorem get_set_self {p : OrderSlotPool} {it : OrderIterator} (h : it < p.storage.length) (o : Order) :
    get (set p it o) it = o := by
  simp [get, set, h]

theorem get_set_of_ne (p : OrderSlotPool) {it jt : OrderIterator} (h : it ≠ jt) (o : Order) :
    get (set p it o) jt = get p jt := by
  simp [get, set, List.getElem?_set_ne h]

@[simp] theorem set_set (p : OrderSlotPool) (it : OrderIterator) (o o' : Order) :
    set (set p it o) it o' = set p it o' := by
  simp [set]

def Owned (p : OrderSlotPool) (used : List OrderIterator) : Prop :=
  Owns used p.freeList p.storage.length

theorem owned_empty : Owned {} [] := owns_nil

theorem allocate_spec {p : OrderSlotPool} {used : List OrderIterator} (h : Owned p used) :
    Owned (allocate p).2 ((allocate p).1 :: used) ∧ (allocate p).1 ∉ used ∧
      ∀ it ∈ used, get (allocate p).2 it = get p it := by
  cases hf : p.freeList with
  | nil =>
      rw [Owned, hf] at h
      have hn : p.storage.length ∉ used := fun hm => Nat.lt_irrefl _ (h.lt_of_used hm)
      simp only [allocate, hf]
      refine ⟨?_, hn, ?_⟩
      · simpa only [Owned, hf, List.length_append, List.length_singleton] using h.grow
      · intro it hit
        simp [get, List.getElem?_append_left (h.lt_of_used hit)]
  | cons it rest =>
      rw [Owned, hf] at h
      simp only [allocate, hf]
      exact ⟨h.reuse, fun hm => h.disjoint hm List.mem_cons_self, fun _ _ => rfl⟩

theorem owned_lt {p : OrderSlotPool} {used : List OrderIterator} (h : Owned p used)
    {it : OrderIterator} (hit : it ∈ used) : it < p.storage.length := h.lt_of_used hit

end Orderbook.SlotPool
