import Mathlib.Logic.Function.Basic
import Opennop.Lib.Chain
import Opennop.Lib.Exec

/-!
# WCCP service groups (`include/list.h`, `opennopd/subsystems/wccpv2.c`)

A service group keeps its servers and its web-caches in doubly linked lists. The items are the
elements of a type of addresses, their links a map from addresses; the back pointer of an item to
its list head, which no function reads, is left out, and so are locks, sockets and timers.
-/

namespace Opennop

/-- `struct list_head` -/
structure ListHead (A : Type) where
  next : Option A := none
  prev : Option A := none
  count : Nat := 0

/-- The links of a `struct list_item`. -/
structure ListItem (A : Type) where
  next : Option A := none
  prev : Option A := none

section Insert

variable {A : Type} [DecidableEq A]

/-- `insert_list_item` -/
def insertListItem (head : ListHead A) (items : A → ListItem A) (item : Option A) :
    Exec (ListHead A × (A → ListItem A)) :=
  match item with
  | none => .ok (head, items)
  | some item =>
    match head.next with
    | none => .ok (⟨some item, some item, head.count + 1⟩, Function.update items item ⟨none, none⟩)
    | some _ =>
      match head.prev with
      | none => .error .segv
      | some last =>
        -- the old last item is linked first, and the links of the new one are written after that
        let items := Function.update items last { items last with next := some item }
        let items := Function.update items item ⟨none, some last⟩
        .ok ({ head with prev := some item, count := head.count + 1 }, items)

/-- The list head and the links are those of the list `l`. -/
structure Linked (head : ListHead A) (items : A → ListItem A) (l : List A) : Prop where
  list : DList (fun a => (items a).next) (fun a => (items a).prev) head.next head.prev l
  count : head.count = l.length

namespace Linked

variable {head : ListHead A} {items : A → ListItem A} {l : List A} {a : A}

omit [DecidableEq A] in
theorem nil (items : A → ListItem A) : Linked {} items [] := ⟨DList.nil _ _, rfl⟩

/-- **A new item is added at the end of the list.** -/
theorem insertListItem (h : Linked head items l) (ha : a ∉ l) :
    ∃ head' items', Opennop.insertListItem head items (some a) = .ok (head', items') ∧
      Linked head' items' (l ++ [a]) := by
  unfold Opennop.insertListItem
  cases l with
  | nil =>
    have hnext : head.next = none := h.list.forward
    rw [hnext]
    refine ⟨_, _, rfl, ⟨⟨List.nodup_singleton a, ⟨rfl, ?_⟩, ⟨rfl, ?_⟩⟩, ?_⟩⟩
    · simp
    · simp
    · simp [h.count]
  | cons b l =>
    obtain ⟨last, hlast⟩ : ∃ last, (b :: l).getLast? = some last :=
      ⟨_, List.getLast?_eq_some_getLast (by simp)⟩
    have hnext : head.next = some b := h.list.forward.1
    have hprev : head.prev = some last := h.list.tail_eq.trans hlast
    rw [hnext, hprev]
    refine ⟨_, _, rfl, ⟨?_, by simp [h.count]⟩⟩
    have happend : DList (fun x => (Function.update (Function.update items last
          { items last with next := some a }) a ⟨none, some last⟩ x).next)
        (fun x => (Function.update (Function.update items last
          { items last with next := some a }) a ⟨none, some last⟩ x).prev)
        (if b :: l = [] then some a else head.next) (some a) (b :: l ++ [a]) := by
      refine h.list.append ha (fun x hx => ?_) ?_ (fun x hx => ?_) ?_
      · have hxa : x ≠ a := fun heq => ha (heq ▸ hx)
        rw [Function.update_of_ne hxa, hprev]
        by_cases hxl : x = last
        · subst hxl
          simp
        · rw [Function.update_of_ne hxl, if_neg (by simpa using hxl)]
      · rw [Function.update_self]
      · have hxa : x ≠ a := fun heq => ha (heq ▸ hx)
        rw [Function.update_of_ne hxa]
        by_cases hxl : x = last
        · subst hxl
          rw [Function.update_self]
        · rw [Function.update_of_ne hxl]
      · rw [Function.update_self, hprev]
    rw [if_neg (by simp), hnext] at happend
    exact happend

end Linked

end Insert

/-- `struct wccp_server`: the address as it was parsed, and the ID that the router gave itself. -/
structure WccpServer where
  ipaddress : UInt32
  routerId : UInt32
  deriving DecidableEq

/-- `struct wccp_service_group` -/
structure WccpServiceGroup (A B : Type) where
  groupId : UInt8
  changeNumber : UInt32
  servers : ListHead A
  webcaches : ListHead B

/-- The servers and web-caches in memory. -/
structure WccpHeap (A B : Type) where
  serverItem : A → ListItem A
  server : A → WccpServer
  webcacheItem : B → ListItem B
  /-- `ipaddress` of `struct wccp_webcache` -/
  webcache : B → UInt32

end Opennop
