import Mathlib

/-!
# Doubly linked rings

A ring of nodes that are linked in both directions, with a head that stands for no item.
Items are put behind the head and taken out by moving links, one link at a time.  A ring
lists its items if the links lead through them from the head to the head.
-/

namespace Xv6Users.LinkedRing

open Function List

variable {α : Type*} [DecidableEq α] {fuel : ℕ}

/-- The links of the nodes; the head is `none`. -/
structure Links (α : Type*) where
  next : Option α → Option α
  prev : Option α → Option α

def Links.setNext (ring : Links α) (node target : Option α) : Links α :=
  { ring with next := update ring.next node target }

def Links.setPrev (ring : Links α) (node target : Option α) : Links α :=
  { ring with prev := update ring.prev node target }

def Links.clear (ring : Links α) : Links α :=
  (ring.setPrev none none).setNext none none

def Links.pushFront (ring : Links α) (item : α) : Links α :=
  let ring := ring.setNext (some item) (ring.next none)
  let ring := ring.setPrev (some item) none
  let ring := ring.setPrev (ring.next none) (some item)
  ring.setNext none (some item)

def Links.unlink (ring : Links α) (item : α) : Links α :=
  let ring := ring.setPrev (ring.next (some item)) (ring.prev (some item))
  ring.setNext (ring.prev (some item)) (ring.next (some item))

/-- The first item with a property along some links; the search ends at the head. -/
def search (links : Option α → Option α) (wanted : α → Bool) :
    ℕ → Option α → Option α
  | 0, _ => none
  | _ + 1, none => none
  | fuel + 1, some item =>
    if wanted item then some item else search links wanted fuel (links (some item))

/-- Two nodes that are next to each other. -/
def Links.Joined (ring : Links α) (left right : Option α) : Prop :=
  ring.next left = right ∧ ring.prev right = left

def Links.Leads (ring : Links α) (node : Option α) (items : List α) : Prop :=
  (node :: (items.map some ++ [none])).IsChain ring.Joined

structure Links.Lists (ring : Links α) (items : List α) : Prop where
  leads : ring.Leads none items
  nodup : items.Nodup

section Leads

variable {ring ring' : Links α} {node : Option α} {item : α} {items : List α}

omit [DecidableEq α] in
@[simp]
theorem leads_nil : ring.Leads node [] ↔ ring.Joined node none := by
  rw [Links.Leads, map_nil, nil_append, isChain_cons_cons]
  exact and_iff_left (isChain_singleton _)

omit [DecidableEq α] in
@[simp]
theorem leads_cons :
    ring.Leads node (item :: items) ↔
      ring.Joined node (some item) ∧ ring.Leads (some item) items := by
  rw [Links.Leads, map_cons, cons_append, isChain_cons_cons]
  rfl

omit [DecidableEq α] in
/-- Only the links of the nodes on the way count. -/
theorem Links.Leads.congr (hleads : ring.Leads node items)
    (hnext : ∀ other ∈ node :: items.map some, ring'.next other = ring.next other)
    (hprev : ∀ other ∈ none :: items.map some, ring'.prev other = ring.prev other) :
    ring'.Leads node items := by
  induction items generalizing node with
  | nil =>
    rw [leads_nil] at hleads ⊢
    exact ⟨(hnext node (.head _)).trans hleads.1, (hprev none (.head _)).trans hleads.2⟩
  | cons item rest ih =>
    rw [leads_cons] at hleads ⊢
    refine ⟨⟨(hnext node (.head _)).trans hleads.1.1, ?_⟩, ?_⟩
    · exact (hprev _ (.tail _ (.head _))).trans hleads.1.2
    · apply ih hleads.2
      · exact fun other hother => hnext other (.tail _ hother)
      · intro other hother
        apply hprev
        cases mem_cons.1 hother with
        | inl hhead =>
          rw [hhead]
          exact .head _
        | inr hrest => exact .tail _ (.tail _ hrest)

omit [DecidableEq α] in
/-- The node before an item is on the way. -/
theorem Links.Leads.prev_mem (hleads : ring.Leads node items) (hitem : item ∈ items) :
    ring.prev (some item) ∈ node :: items.map some := by
  induction items generalizing node with
  | nil => cases hitem
  | cons first rest ih =>
    rw [leads_cons] at hleads
    cases mem_cons.1 hitem with
    | inl hfirst =>
      rw [hfirst, hleads.1.2]
      exact .head _
    | inr hrest => exact .tail _ (ih hleads.2 hrest)

omit [DecidableEq α] in
/-- So is the node behind it, which is not the first item. -/
theorem Links.Leads.next_mem (hleads : ring.Leads node items) (hitem : item ∈ items) :
    ring.next (some item) ∈ none :: items.tail.map some := by
  induction items generalizing node with
  | nil => cases hitem
  | cons first rest ih =>
    rw [leads_cons] at hleads
    cases mem_cons.1 hitem with
    | inl hfirst =>
      cases rest with
      | nil =>
        rw [hfirst, (leads_nil.1 hleads.2).1]
        exact .head _
      | cons second others =>
        rw [hfirst, (leads_cons.1 hleads.2).1.1]
        exact .tail _ (.head _)
    | inr hrest =>
      have hmem := ih hleads.2 hrest
      rw [mem_cons] at hmem ⊢
      apply hmem.imp_right
      rw [mem_map, mem_map]
      rintro ⟨other, hother, heq⟩
      exact ⟨other, mem_of_mem_tail hother, heq⟩

omit [DecidableEq α] in
/-- Every node on the way is linked both ways. -/
theorem Links.Leads.joined_next (hleads : ring.Leads node items) :
    ∀ other ∈ node :: items.map some, ring.prev (ring.next other) = other := by
  induction items generalizing node with
  | nil =>
    intro other hother
    rw [leads_nil] at hleads
    rw [map_nil, mem_singleton] at hother
    rw [hother, hleads.1, hleads.2]
  | cons first rest ih =>
    rw [leads_cons] at hleads
    intro other hother
    cases mem_cons.1 hother with
    | inl hnode => rw [hnode, hleads.1.1, hleads.1.2]
    | inr hrest => exact ih hleads.2 other hrest

omit [DecidableEq α] in
theorem search_next {wanted : α → Bool} (hleads : ring.Leads node items)
    (hfuel : items.length < fuel) :
    search ring.next wanted fuel (ring.next node) = items.find? wanted := by
  induction items generalizing node fuel with
  | nil =>
    rw [(leads_nil.1 hleads).1]
    cases fuel with
    | zero => rfl
    | succ fuel => rfl
  | cons first rest ih =>
    rw [leads_cons] at hleads
    rw [hleads.1.1, find?_cons]
    cases fuel with
    | zero => exact absurd hfuel (Nat.not_lt_zero _)
    | succ fuel =>
      rw [search]
      rw [length_cons, Nat.add_lt_add_iff_right] at hfuel
      rw [ih hleads.2 hfuel]
      cases wanted first <;> rfl

omit [DecidableEq α] in
theorem search_wanted {links : Option α → Option α} {wanted : α → Bool}
    (hsearch : search links wanted fuel node = some item) : wanted item = true := by
  induction fuel generalizing node with
  | zero => cases hsearch
  | succ fuel ih =>
    cases node with
    | none => cases hsearch
    | some first =>
      rw [search] at hsearch
      split_ifs at hsearch with hfirst
      · cases hsearch
        exact hfirst
      · exact ih hsearch

end Leads

section Lists

variable {ring : Links α} {item : α} {items : List α}

theorem lists_clear (ring : Links α) : ring.clear.Lists [] := by
  refine ⟨leads_nil.2 ⟨?_, ?_⟩, nodup_nil⟩
  · simp only [Links.clear, Links.setNext, update_self]
  · simp only [Links.clear, Links.setNext, Links.setPrev, update_self]

/-- The links of a ring with a new item. -/
theorem pushFront_next (ring : Links α) (item : α) (node : Option α) :
    (ring.pushFront item).next node =
      if node = none then some item else if node = some item then ring.next none
      else ring.next node := by
  simp only [Links.pushFront, Links.setNext, Links.setPrev, update_apply]

theorem pushFront_prev (ring : Links α) (item : α) (node : Option α) :
    (ring.pushFront item).prev node =
      if node = ring.next none then some item else if node = some item then none
      else ring.prev node := by
  have hhead : (none : Option α) ≠ some item := nofun
  simp only [Links.pushFront, Links.setNext, Links.setPrev, update_apply, if_neg hhead]

theorem Links.Lists.pushFront (hlists : ring.Lists items) (hitem : item ∉ items) :
    (ring.pushFront item).Lists (item :: items) := by
  refine ⟨leads_cons.2 ⟨⟨?_, ?_⟩, ?_⟩, nodup_cons.2 ⟨hitem, hlists.nodup⟩⟩
  · rw [pushFront_next, if_pos rfl]
  · have hfirst : some item ≠ ring.next none := by
      intro hfirst
      cases items with
      | nil =>
        rw [(leads_nil.1 hlists.leads).1] at hfirst
        cases hfirst
      | cons first rest =>
        rw [(leads_cons.1 hlists.leads).1.1] at hfirst
        cases hfirst
        exact hitem (.head _)
    rw [pushFront_prev, if_neg hfirst, if_pos rfl]
  · cases items with
    | nil =>
      have hempty := (leads_nil.1 hlists.leads).1
      rw [leads_nil]
      constructor
      · rw [pushFront_next, if_neg (Option.some_ne_none _), if_pos rfl, hempty]
      · rw [pushFront_prev, if_pos hempty.symm]
    | cons first rest =>
      obtain ⟨⟨hnext, hprev⟩, hrest⟩ := leads_cons.1 hlists.leads
      obtain ⟨hfirst, -⟩ := nodup_cons.1 hlists.nodup
      rw [leads_cons]
      refine ⟨⟨?_, ?_⟩, hrest.congr ?_ ?_⟩
      · rw [pushFront_next, if_neg (Option.some_ne_none _), if_pos rfl, hnext]
      · rw [pushFront_prev, if_pos hnext.symm]
      · intro other hother
        rw [← map_cons, mem_map] at hother
        obtain ⟨found, hfound, rfl⟩ := hother
        rw [pushFront_next, if_neg (Option.some_ne_none _), if_neg]
        rintro ⟨⟩
        exact hitem hfound
      · intro other hother
        have hne : other ≠ some first ∧ other ≠ some item := by
          constructor
          · rintro rfl
            simp [hfirst] at hother
          · rintro rfl
            exact hitem (mem_cons_of_mem _ (by simpa using hother))
        rw [pushFront_prev, hnext, if_neg hne.1, if_neg hne.2]

theorem Links.Lists.pushFront_all (hlists : ring.Lists items) {list : List α}
    (hnodup : (list ++ items).Nodup) :
    (list.foldl Links.pushFront ring).Lists (list.reverse ++ items) := by
  induction list generalizing ring items with
  | nil => exact hlists
  | cons first rest ih =>
    rw [cons_append, nodup_cons, mem_append, not_or] at hnodup
    obtain ⟨⟨hrest, hitems⟩, hnodup⟩ := hnodup
    rw [foldl_cons, reverse_cons, append_assoc]
    apply ih (hlists.pushFront hitems)
    rw [nodup_middle, nodup_cons, mem_append, not_or]
    exact ⟨⟨hrest, hitems⟩, hnodup⟩

theorem unlink_next (ring : Links α) (item : α) (node : Option α)
    (hself : ring.next (some item) ≠ some item) :
    (ring.unlink item).next node =
      if node = ring.prev (some item) then ring.next (some item) else ring.next node := by
  simp only [Links.unlink, Links.setNext, Links.setPrev, update_apply, if_neg hself.symm]

theorem unlink_prev (ring : Links α) (item : α) (node : Option α) :
    (ring.unlink item).prev node =
      if node = ring.next (some item) then ring.prev (some item) else ring.prev node := by
  simp only [Links.unlink, Links.setNext, Links.setPrev, update_apply]

/-- An item on the way is left out. -/
theorem Links.Leads.unlink {node : Option α} (hleads : ring.Leads node items)
    (hnodup : items.Nodup) (hnode : node ∉ items.map some) (hitem : item ∈ items)
    (hself : ring.next (some item) ≠ some item) :
    (ring.unlink item).Leads node (items.erase item) := by
  induction items generalizing node with
  | nil => cases hitem
  | cons first rest ih =>
    obtain ⟨⟨hnext, hprev⟩, hrest⟩ := leads_cons.1 hleads
    obtain ⟨hfirst, hnodup'⟩ := nodup_cons.1 hnodup
    by_cases hsame : first = item
    · subst hsame
      rw [erase_cons_head]
      cases rest with
      | nil =>
        obtain ⟨hnone, -⟩ := leads_nil.1 hrest
        rw [leads_nil]
        constructor
        · rw [unlink_next _ _ _ hself, if_pos hprev.symm, hnone]
        · rw [unlink_prev, if_pos hnone.symm, hprev]
      | cons second others =>
        obtain ⟨⟨hnext', -⟩, hothers⟩ := leads_cons.1 hrest
        obtain ⟨hsecond, -⟩ := nodup_cons.1 hnodup'
        rw [leads_cons]
        refine ⟨⟨?_, ?_⟩, hothers.congr ?_ ?_⟩
        · rw [unlink_next _ _ _ hself, if_pos hprev.symm, hnext']
        · rw [unlink_prev, if_pos hnext'.symm, hprev]
        · intro other hother
          rw [unlink_next _ _ _ hself, if_neg]
          rintro rfl
          apply hnode
          rw [hprev] at hother
          exact .tail _ hother
        · intro other hother
          rw [unlink_prev, if_neg]
          rintro rfl
          rw [hnext'] at hother
          simp [hsecond] at hother
    · have hmem : item ∈ rest := (mem_cons.1 hitem).resolve_left (Ne.symm hsame)
      have hbefore := hrest.prev_mem hmem
      have hbehind := hrest.next_mem hmem
      rw [erase_cons_tail (by simpa using hsame), leads_cons]
      refine ⟨⟨?_, ?_⟩, ih hrest hnodup' ?_ hmem⟩
      · rw [unlink_next _ _ _ hself, if_neg]
        · exact hnext
        · rintro rfl
          exact hnode hbefore
      · rw [unlink_prev, if_neg]
        · exact hprev
        · intro hhead
          rw [← hhead, mem_cons] at hbehind
          cases hbehind with
          | inl hnone => cases hnone
          | inr htail =>
            rw [mem_map] at htail
            obtain ⟨other, hother, heq⟩ := htail
            cases heq
            exact hfirst (mem_of_mem_tail hother)
      · intro hother
        rw [mem_map] at hother
        obtain ⟨other, hother, heq⟩ := hother
        cases heq
        exact hfirst hother

omit [DecidableEq α] in
/-- No item is linked to itself. -/
theorem Links.Leads.next_ne_self {node : Option α} (hleads : ring.Leads node items)
    (hnodup : items.Nodup) (hitem : item ∈ items) : ring.next (some item) ≠ some item := by
  induction items generalizing node with
  | nil => cases hitem
  | cons first rest ih =>
    obtain ⟨-, hrest⟩ := leads_cons.1 hleads
    obtain ⟨hfirst, hnodup'⟩ := nodup_cons.1 hnodup
    cases mem_cons.1 hitem with
    | inr hmem => exact ih hrest hnodup' hmem
    | inl hsame =>
      subst hsame
      intro hself
      have hbehind := hleads.next_mem (.head _)
      rw [hself, tail_cons] at hbehind
      simp [hfirst] at hbehind

theorem Links.Lists.unlink (hlists : ring.Lists items) (hitem : item ∈ items) :
    (ring.unlink item).Lists (items.erase item) where
  leads := by
    apply hlists.leads.unlink hlists.nodup ?_ hitem
    · exact hlists.leads.next_ne_self hlists.nodup hitem
    · simp
  nodup := hlists.nodup.erase item

/-- An item is moved to the front. -/
theorem Links.Lists.moveFront (hlists : ring.Lists items) (hitem : item ∈ items) :
    ((ring.unlink item).pushFront item).Lists (item :: items.erase item) :=
  (hlists.unlink hitem).pushFront hlists.nodup.not_mem_erase

def Links.turn (ring : Links α) : Links α := ⟨ring.prev, ring.next⟩

omit [DecidableEq α] in
theorem Links.Lists.turn (hlists : ring.Lists items) : ring.turn.Lists items.reverse where
  leads := by
    have hchain : (none :: (items.map some ++ [none])).reverse.IsChain
        fun left right => ring.Joined right left := isChain_reverse.2 hlists.leads
    have hnodes : (none :: (items.map some ++ [none])).reverse =
        none :: (items.reverse.map some ++ [none]) := by
      simp
    rw [hnodes] at hchain
    apply hchain.imp
    intro left right hjoined
    exact ⟨hjoined.2, hjoined.1⟩
  nodup := nodup_reverse.2 hlists.nodup

omit [DecidableEq α] in
theorem search_prev {wanted : α → Bool} (hlists : ring.Lists items) (hfuel : items.length < fuel) :
    search ring.prev wanted fuel (ring.prev none) = items.reverse.find? wanted := by
  apply search_next hlists.turn.leads
  rwa [length_reverse]

omit [DecidableEq α] in
/-- If every item is listed, the links in the two directions are inverse. -/
theorem Links.Lists.inverse (hlists : ring.Lists items) (hall : ∀ item, item ∈ items)
    (node : Option α) : ring.prev (ring.next node) = node ∧ ring.next (ring.prev node) = node := by
  constructor
  · apply hlists.leads.joined_next
    cases node with
    | none => exact .head _
    | some item => exact .tail _ (mem_map_of_mem (hall item))
  · apply hlists.turn.leads.joined_next
    cases node with
    | none => exact .head _
    | some item =>
      apply mem_cons_of_mem
      exact mem_map_of_mem (mem_reverse.2 (hall item))

end Lists

end Xv6Users.LinkedRing
