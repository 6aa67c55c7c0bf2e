import Entail.Proofs.Store.Contents
import Entail.Store
/-!
# Feeds

What the store and the list of changes that wait for a subscription look like after a quad was stored
or removed.
-/

namespace Entail

namespace ChangeFeed

variable {f : ChangeFeed} {id : Nat}

theorem waiting_publish (h : f.buffers.contains id = true) (c : Change Quad) :
    (f.publish c).waiting id = f.waiting id ++ [c] := by
  obtain ⟨b, hb⟩ := OrderedMap.contains_iff.1 h
  simp only [publish, waiting, OrderedMap.get?_mapValues, hb, Option.map_some, Option.getD_some]

theorem contains_publish (c : Change Quad) :
    (f.publish c).buffers.contains id = f.buffers.contains id := by
  rw [publish, OrderedMap.contains, OrderedMap.get?_mapValues, Option.isSome_map]
  rfl

theorem waiting_drain (f : ChangeFeed) (id : Nat) : (f.drain id).2.waiting id = [] := by
  rw [drain]
  split
  · simp only [waiting, OrderedMap.get?_insert_self, Option.getD_some]
  · rename_i hclosed
    rw [waiting, Option.not_isSome_iff_eq_none.1 hclosed]
    rfl

theorem contains_drain (h : f.buffers.contains id = true) :
    (f.drain id).2.buffers.contains id = true := by
  rw [drain, if_pos h]
  exact OrderedMap.contains_iff.2 ⟨[], OrderedMap.get?_insert_self _ _ _⟩

theorem get?_drain_of_ne {own : Nat} (hid : id ≠ own) :
    (f.drain own).2.buffers.get? id = f.buffers.get? id := by
  rw [drain]
  split
  · rw [OrderedMap.get?_insert, if_neg hid.symm]
  · rfl

theorem drain_of_ne {own : Nat} (hid : id ≠ own) (h : f.buffers.contains id = true) :
    (f.drain own).2.buffers.contains id = true ∧ (f.drain own).2.waiting id = f.waiting id := by
  simp only [waiting, OrderedMap.contains, get?_drain_of_ne hid]
  exact ⟨h, trivial⟩

theorem get?_unsubscribe_of_ne {own : Nat} (hid : id ≠ own) :
    (f.unsubscribe own).2.buffers.get? id = f.buffers.get? id := by
  rw [unsubscribe, OrderedMap.get?_erase, if_neg hid.symm]

theorem not_contains_unsubscribe (f : ChangeFeed) (id : Nat) :
    ¬ (f.unsubscribe id).2.buffers.contains id = true := by
  rw [unsubscribe, OrderedMap.contains, OrderedMap.get?_erase_self]
  exact Bool.false_ne_true

theorem get?_subscribe_of_ne (hid : id ≠ f.subscribe.1) :
    f.subscribe.2.buffers.get? id = f.buffers.get? id := by
  have hne : f.nextId ≠ id := hid.symm
  rw [subscribe, OrderedMap.get?_insert, if_neg hne]

theorem waiting_subscribe (f : ChangeFeed) : f.subscribe.2.waiting f.subscribe.1 = [] := by
  simp only [subscribe, waiting, OrderedMap.get?_insert_self, Option.getD_some]

theorem contains_subscribe (f : ChangeFeed) :
    f.subscribe.2.buffers.contains f.subscribe.1 = true :=
  OrderedMap.contains_iff.2 ⟨[], OrderedMap.get?_insert_self _ _ _⟩

end ChangeFeed

namespace Store

variable {σ : Store} {q : Quad} {id : Nat}

/-- The store after a change that makes a difference. -/
def take (σ : Store) (c : Change Quad) : Store :=
  ⟨σ.contents.apply c, σ.feed.publish c⟩

theorem has_take (c : Change Quad) : (σ.take c).contents.Has = c.step σ.contents.Has := by
  funext _
  exact propext Contents.contains_apply

theorem has_take_of_ne {c : Change Quad} (h : q ≠ c.value) :
    (σ.take c).contents.Has q ↔ σ.contents.Has q := by
  rw [has_take]
  exact Change.step_iff_of_ne h

theorem insert_of_valid (h : q.validate = .ok ()) : σ.insert q = .ok (σ.insertValid q) := by
  rw [insert, h]

theorem insertValid_of_has (h : σ.contents.Has q) : σ.insertValid q = (false, σ) :=
  if_pos h

theorem insertValid_of_not_has (h : ¬ σ.contents.Has q) :
    σ.insertValid q = (true, σ.take (.gained q)) :=
  if_neg h

theorem remove_of_has (h : σ.contents.Has q) : σ.remove q = (true, σ.take (.lost q)) :=
  if_pos h

theorem remove_of_not_has (h : ¬ σ.contents.Has q) : σ.remove q = (false, σ) :=
  if_neg h

end Store

end Entail
