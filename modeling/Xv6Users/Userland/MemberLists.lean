import Xv6Users.Core.LinkedNodes
import Xv6Users.Userland.GroupRecords

/-!
# Member lists on the heap

`usermod -G` edits the member lists of loaded groups in place, through the
`next` pointers of their nodes.  The node of the edited user is a single object
that may end up in several lists, so these routines are modelled on a heap.
Following a null pointer is `none`.
-/

namespace Xv6Users.MemberLists

open LinkedNodes Ulib UserRecords GroupRecords List

variable {cells tail : List (ℕ × User)}

abbrev UserHeap := Heap User

/-- A group as the C structure holds it, with a pointer to its first member. -/
abbrev GroupPtr := GroupOf (Option ℕ)

/-- The loop of `addUserToListSorted`: advance while the next member does not
come after `currUser`. -/
def lastNotAbove (heap : UserHeap) (currUser : User) : ℕ → ℕ → Option ℕ
  | 0, _ => none
  | fuel + 1, tmpUser => do
    let node ← heap.node tmpUser
    match node.next with
    | none => some tmpUser
    | some next =>
      let nextNode ← heap.node next
      if compareUsers nextNode.value currUser ≤ 0 then
        lastNotAbove heap currUser fuel next
      else some tmpUser

/-- `addUserToListSorted` on nodes.  An empty list becomes `currUser` with
whatever its `next` pointer held before. -/
def addUserToListSorted (heap : UserHeap) (userList currUser : Option ℕ) :
    Option (UserHeap × Option ℕ) :=
  match currUser, userList with
  | none, userList => some (heap, userList)
  | some currUser, none => some (heap, some currUser)
  | some currUser, some first => do
    let firstNode ← heap.node first
    let currNode ← heap.node currUser
    if compareUsers firstNode.value currNode.value > 0 then
      some (heap.setNext currUser (some first), some currUser)
    else
      let tmpUser ← lastNotAbove heap currNode.value (heap.size + 1) first
      let tmpNode ← heap.node tmpUser
      some ((heap.setNext currUser tmpNode.next).setNext tmpUser (some currUser), some first)

/-- The loop of `isUserInGroup`. -/
def isUserInList (heap : UserHeap) (currUser : User) :
    ℕ → Option ℕ → Option Bool
  | 0, _ => none
  | _ + 1, none => some false
  | fuel + 1, some userList => do
    let node ← heap.node userList
    if compareUsers node.value currUser = 0 then some true
    else isUserInList heap currUser fuel node.next

def isUserInGroup (heap : UserHeap) (currUser : User) (currGroup : GroupPtr) : Option Bool :=
  isUserInList heap currUser (heap.size + 1) currGroup.userList

/-- The merge of `addUserToGroups`, which runs through both gid-sorted lists
once. -/
def joinLoop (currUser : ℕ) :
    UserHeap → List Group → List GroupPtr → Option (UserHeap × List GroupPtr)
  | heap, _, [] => some (heap, [])
  | heap, [], tmpGroup :: rest => some (heap, tmpGroup :: rest)
  | heap, target :: more, tmpGroup :: rest =>
    if compareGroups target tmpGroup = 0 then do
      let currNode ← heap.node currUser
      let inside ← isUserInGroup heap currNode.value tmpGroup
      let joined ←
        if inside then some (heap, tmpGroup.userList)
        else addUserToListSorted heap tmpGroup.userList (some currUser)
      let result ← joinLoop currUser joined.1 more rest
      some (result.1, tmpGroup.withMembers joined.2 :: result.2)
    else do
      let result ← joinLoop currUser heap (target :: more) rest
      some (result.1, tmpGroup :: result.2)

/-- The loop of `removeUserFromCurrGroup`.  After unlinking a node it goes on
with the successor of that node, which may be null. -/
def unlinkLoop (currUser : User) :
    ℕ → UserHeap → Option ℕ → Option UserHeap
  | 0, _, _ => none
  | _ + 1, _, none => none
  | fuel + 1, heap, some tmpUser => do
    let node ← heap.node tmpUser
    match node.next with
    | none => some heap
    | some next =>
      let nextNode ← heap.node next
      if compareUsers nextNode.value currUser = 0 then
        unlinkLoop currUser fuel (heap.setNext tmpUser nextNode.next) nextNode.next
      else unlinkLoop currUser fuel heap (some next)

def removeUserFromCurrGroup (heap : UserHeap) (currGroup : GroupPtr)
    (currUser : User) : Option (UserHeap × Option ℕ) :=
  match currGroup.userList with
  | none => some (heap, none)
  | some first =>
    -- The group named after the user is kept as it is.
    if currGroup.groupname = currUser.username then some (heap, some first)
    else do
      let firstNode ← heap.node first
      if compareUsers firstNode.value currUser = 0 then
        some (heap, firstNode.next)
      else
        let heap ← unlinkLoop currUser (heap.size + 1) heap (some first)
        some (heap, some first)

/-- The loop of `removeUserFromAllGroups`. -/
def leaveLoop (currUser : User) :
    UserHeap → List GroupPtr → Option (UserHeap × List GroupPtr)
  | heap, [] => some (heap, [])
  | heap, tmpGroup :: rest => do
    let left ← removeUserFromCurrGroup heap tmpGroup currUser
    let result ← leaveLoop currUser left.1 rest
    some (result.1, tmpGroup.withMembers left.2 :: result.2)

def readGroups (heap : UserHeap) (groupList : List GroupPtr) : Option (List Group) :=
  groupList.mapM fun group => do
    let userList ← heap.walk (heap.size + 1) group.userList
    some (group.withMembers userList)

/-- Loaded groups: every member of every group is a node of its own. -/
def allocGroups (heap : UserHeap) : List Group → UserHeap × List GroupPtr
  | [] => (heap, [])
  | group :: rest =>
    let members := heap.allocList group.userList
    let result := allocGroups members.1 rest
    (result.1, group.withMembers members.2 :: result.2)

section Database

variable (after passwd group : List Byte)

/-- `currUser` comes from `getUserFromUsername`, which clears its `next`
pointer. -/
def addUserToGroups (groupsToAddUser : List Group) (currUser : User) :
    Option (List Byte) := do
  let groupList ← selectAllGroupsFromGroupFile after passwd group
  let loaded := allocGroups (Heap.empty.alloc ⟨currUser, none⟩) groupList
  let result ← joinLoop 0 loaded.1 groupsToAddUser loaded.2
  let groups ← readGroups result.1 result.2
  updateGroupFile groups

def removeUserFromAllGroups (currUser : User) : Option (List Byte) := do
  let groupList ← selectAllGroupsFromGroupFile after passwd group
  let loaded := allocGroups Heap.empty groupList
  let result ← leaveLoop currUser loaded.1 loaded.2
  let groups ← readGroups result.1 result.2
  updateGroupFile groups

end Database

section Insertion

variable {heap : UserHeap} {user : User}

/-- The cells whose members do not come after `user`. -/
def lowerCells (user : User) (cells : List (ℕ × User)) : List (ℕ × User) :=
  cells.takeWhile fun cell => compareUsers cell.2 user ≤ 0

/-- The cells from the first member after `user` on. -/
def upperCells (user : User) (cells : List (ℕ × User)) : List (ℕ × User) :=
  cells.dropWhile fun cell => compareUsers cell.2 user ≤ 0

theorem lastNotAbove_eq {cell : ℕ × User} {rest : List (ℕ × User)}
    (hlinked : Linked heap (cell :: rest) none) {fuel : ℕ}
    (hfuel : rest.length < fuel) {front : List (ℕ × User)} {final : ℕ × User}
    (hlast : cell :: lowerCells user rest = front ++ [final]) :
    lastNotAbove heap user fuel cell.1 = some final.1 := by
  induction rest generalizing cell fuel front with
  | nil =>
    obtain ⟨fuel, rfl⟩ : ∃ k, fuel = k + 1 := ⟨fuel - 1, by simp at hfuel; omega⟩
    obtain ⟨-, rfl⟩ : front = [] ∧ final = cell := by
      simpa [lowerCells, singleton_eq_append_iff] using hlast
    simp [lastNotAbove, hlinked.1]
  | cons next rest ih =>
    obtain ⟨fuel, rfl⟩ : ∃ k, fuel = k + 1 := ⟨fuel - 1, by simp at hfuel; omega⟩
    by_cases hle : compareUsers next.2 user ≤ 0
    · have hlower : lowerCells user (next :: rest) = next :: lowerCells user rest := by
        simp [lowerCells, hle]
      rw [hlower] at hlast
      cases front with
      | nil => simp at hlast
      | cons first front =>
        have hstep := ih hlinked.2 (by simpa using hfuel)
          (cons.inj hlast).2
        simp [lastNotAbove, hlinked.1, hlinked.2.1, hle, hstep]
    · have hlower : lowerCells user (next :: rest) = [] := by
        simp [lowerCells, hle]
      obtain ⟨-, rfl⟩ : front = [] ∧ final = cell := by
        simpa [hlower, singleton_eq_append_iff] using hlast
      simp [lastNotAbove, hlinked.1, hlinked.2.1, hle]

/-- Insertion into one list.  The new node is chained behind the members that
do not come after it, and its own pointer leads to the rest of that list.  An
empty list is the exception: there the pointer keeps its old value. -/
theorem addUserToListSorted_eq {currUser : ℕ} {next : Option ℕ} (hlinked : Linked heap cells none)
    (hfresh : currUser ∉ addresses cells) (hcurr : heap.node currUser = some ⟨user, next⟩) :
    ∃ result, addUserToListSorted heap (link cells none) (some currUser) =
        some (result, link (lowerCells user cells) (some currUser)) ∧
      Linked result (lowerCells user cells) (some currUser) ∧
      Linked result (upperCells user cells) none ∧
      result.node currUser = some ⟨user,
        if cells = [] then next else link (upperCells user cells) none⟩ ∧
      ∀ a, a ≠ currUser → a ∉ addresses cells → result.node a = heap.node a := by
  cases cells with
  | nil => exact ⟨heap, rfl, trivial, trivial, by simpa using hcurr, by simp⟩
  | cons cell rest =>
    by_cases hle : compareUsers cell.2 user ≤ 0
    · have hlower : lowerCells user (cell :: rest) = cell :: lowerCells user rest := by
        simp [lowerCells, hle]
      have hupper : upperCells user (cell :: rest) = upperCells user rest := by
        simp [upperCells, hle]
      -- The spot is the last cell that does not come after the new node.
      obtain ⟨front, final, hfinal⟩ : ∃ front final,
          cell :: lowerCells user rest = front ++ [final] :=
        ⟨_, _, (dropLast_append_getLast (by simp)).symm⟩
      have hall : cell :: rest = front ++ [final] ++ upperCells user rest := by
        rw [← hfinal, cons_append, lowerCells, upperCells,
          takeWhile_append_dropWhile]
      have hspot : lastNotAbove heap user (heap.size + 1) cell.1 = some final.1 :=
        lastNotAbove_eq hlinked (Nat.lt_succ_of_le (Nat.le_of_succ_le hlinked.length_le)) hfinal
      have hfirst := hlinked.1
      rw [hall] at hlinked hfresh
      have hnode : heap.node final.1 = some ⟨final.2, link (upperCells user rest) none⟩ :=
        (linked_append.1 (linked_append.1 hlinked).1).2.1
      obtain ⟨hfront, hback, hself, hframe⟩ := hlinked.insert_after hfresh hcurr rfl
      refine ⟨(heap.setNext currUser (link (upperCells user rest) none)).setNext
        final.1 (some currUser), ?_, ?_, ?_, ?_, ?_⟩
      · simp [addUserToListSorted, hfirst, hcurr, not_lt.2 hle, hspot, hnode, hlower]
      · rw [hlower, hfinal]
        exact hfront
      · rw [hupper]
        exact hback
      · simpa [hupper] using hself
      · rw [hall]
        exact hframe
    · have hlower : lowerCells user (cell :: rest) = [] := by
        simp [lowerCells, hle]
      have hupper : upperCells user (cell :: rest) = cell :: rest := by
        simp [upperCells, hle]
      refine ⟨heap.setNext currUser (some cell.1), ?_, ?_, ?_, ?_, ?_⟩
      · simp [addUserToListSorted, hlinked.1, hcurr, not_le.1 hle, hlower]
      · rw [hlower]
        trivial
      · rw [hupper]
        refine hlinked.congr fun a ha => setNext_of_ne ?_ _
        rintro rfl
        exact hfresh ha
      · simpa [hupper] using setNext_self hcurr (some cell.1)
      · intro a ha _
        exact setNext_of_ne ha _

theorem isUserInGroup_eq {Members : Type} (user : User) (group : GroupOf Members)
    (hlinked : Linked heap cells none) :
    isUserInGroup heap user (group.withMembers (link cells none)) =
      some (cells.any fun cell => compareUsers cell.2 user = 0) := by
  have hfuel : ∀ {cells : List (ℕ × User)} {fuel : ℕ},
      Linked heap cells none → cells.length ≤ fuel →
      isUserInList heap user (fuel + 1) (link cells none) =
        some (cells.any fun cell => compareUsers cell.2 user = 0) := by
    intro cells
    induction cells with
    | nil => intro fuel _ _; rfl
    | cons cell rest ih =>
      intro fuel hlinked hlength
      obtain ⟨fuel, rfl⟩ : ∃ k, fuel = k + 1 := ⟨fuel - 1, by simp at hlength; omega⟩
      have hrest := ih hlinked.2 (by simpa using hlength)
      by_cases hsame : compareUsers cell.2 user = 0 <;>
        simp [isUserInList, hlinked.1, hsame, hrest]
  exact hfuel hlinked hlinked.length_le

end Insertion

abbrev CellGroup := GroupOf (List (ℕ × User))

variable {layout : List CellGroup}

def pointers (layout : List CellGroup) : List GroupPtr :=
  layout.map fun group => group.withMembers (link group.userList none)

def contents (layout : List CellGroup) : List Group :=
  layout.map fun group => group.withMembers (values group.userList)

/-- Every member list is a chain to null, and no node is shared. -/
structure LaidOut (heap : UserHeap) (layout : List CellGroup) : Prop where
  linked : ∀ group ∈ layout, Linked heap group.userList none
  separate : layout.Pairwise fun group other =>
    ∀ a ∈ addresses group.userList, a ∉ addresses other.userList

variable {heap : UserHeap}

theorem LaidOut.congr {other : UserHeap} (hlaid : LaidOut heap layout)
    (hsame : ∀ group ∈ layout, ∀ a ∈ addresses group.userList, other.node a = heap.node a) :
    LaidOut other layout where
  linked group hgroup := (hlaid.linked group hgroup).congr (hsame group hgroup)
  separate := hlaid.separate

variable {group : CellGroup} {marks : List (CellGroup × Bool)} {result : UserHeap}

theorem laidOut_cons :
    LaidOut heap (group :: layout) ↔ Linked heap group.userList none ∧
        (∀ other ∈ layout, ∀ a ∈ addresses group.userList,
          a ∉ addresses other.userList) ∧ LaidOut heap layout := by
  constructor
  · rintro ⟨hlinked, hseparate⟩
    obtain ⟨hgroup, hrest⟩ := pairwise_cons.1 hseparate
    exact ⟨hlinked group (by simp), hgroup,
      fun other hother => hlinked other (by simp [hother]), hrest⟩
  · rintro ⟨hgroup, hseparate, hrest⟩
    refine ⟨?_, pairwise_cons.2 ⟨hseparate, hrest.separate⟩⟩
    intro other hother
    rcases mem_cons.1 hother with rfl | hother
    · exact hgroup
    · exact hrest.linked other hother

theorem allocGroups_laidOut (heap : UserHeap) (groups : List Group) :
    ∃ layout, contents layout = groups ∧ (allocGroups heap groups).2 = pointers layout ∧
      LaidOut (allocGroups heap groups).1 layout ∧
      (∀ group ∈ layout, ∀ a ∈ addresses group.userList, heap.size ≤ a) ∧
      ∀ a < heap.size, (allocGroups heap groups).1.node a = heap.node a := by
  induction groups generalizing heap with
  | nil =>
    exact ⟨[], rfl, rfl, ⟨by simp, List.Pairwise.nil⟩, by simp,
      fun _ _ => rfl⟩
  | cons group rest ih =>
    obtain ⟨cells, hvalues, hnew, hlink, hlinked⟩ := allocList_linked heap group.userList
    obtain ⟨layout, hcontents, hpointers, hlaid, hlater, hframe⟩ :=
      ih (heap.allocList group.userList).1
    have hsize := size_allocList heap group.userList
    refine ⟨group.withMembers cells :: layout, ?_, ?_, ?_, ?_, ?_⟩
    · simp only [contents, map_cons] at hcontents ⊢
      rw [hcontents]
      simp only [GroupOf.withMembers, hvalues]
    · simp only [allocGroups, pointers, map_cons] at hpointers ⊢
      rw [hpointers, hlink]
      rfl
    · refine laidOut_cons.2 ⟨?_, ?_, hlaid⟩
      · exact hlinked.congr fun a ha => hframe a (hlinked.lt_size a ha)
      · intro other hother a ha hmem
        exact absurd (hlater other hother a hmem) (not_le.2 (hlinked.lt_size a ha))
    · intro other hother a ha
      rcases mem_cons.1 hother with rfl | hother
      · exact hnew a ha
      · have := hlater other hother a ha
        omega
    · intro a ha
      rw [allocGroups, hframe a (by omega), node_allocList_of_lt ha]

/-- Which groups the merge inserts into: those it meets while their gid is
next in line, unless the user is inside already. -/
def joinMarks {Members : Type} (inside : GroupOf Members → Bool) :
    List Group → List (GroupOf Members) → List (GroupOf Members × Bool)
  | _, [] => []
  | [], group :: rest => (group, false) :: joinMarks inside [] rest
  | target :: more, group :: rest =>
    if compareGroups target group = 0 then
      (group, !inside group) :: joinMarks inside more rest
    else (group, false) :: joinMarks inside (target :: more) rest

/-- Where the pointer of the inserted node leads in the end: to the rest of the
last list it was put into that was not empty. -/
def sharedTail {β : Type} (upper : List β → List β) :
    List (GroupOf (List β) × Bool) → List β → List β
  | [], tail => tail
  | (group, joined) :: rest, tail =>
    sharedTail upper rest (if joined = true ∧ group.userList ≠ [] then upper group.userList
       else tail)

section Merge

variable {user : User} {currUser : ℕ}

def insideCells (user : User) (group : CellGroup) : Bool :=
  group.userList.any fun cell => compareUsers cell.2 user = 0

/-- The heap in front of the remaining groups `layout`.  The node of the user
lies in none of their lists and leads to `tail`. -/
structure Joining (heap : UserHeap) (user : User) (currUser : ℕ)
    (tail : List (ℕ × User)) (layout : List CellGroup) : Prop where
  laid : LaidOut heap layout
  fresh : ∀ group ∈ layout, currUser ∉ addresses group.userList
  curr : heap.node currUser = some ⟨user, link tail none⟩
  tail_linked : Linked heap tail none
  tail_separate : ∀ group ∈ layout, ∀ a ∈ addresses tail, a ∉ addresses group.userList

theorem Joining.currUser_not_mem_tail
    (hjoining : Joining heap user currUser tail layout) : currUser ∉ addresses tail := by
  have hlinked : Linked heap ((currUser, user) :: tail) none :=
    ⟨hjoining.curr, hjoining.tail_linked⟩
  exact (nodup_cons.1 hlinked.nodup).1

/-- Passing a group without touching it. -/
theorem Joining.skip (hjoining : Joining heap user currUser tail (group :: layout)) :
    Joining heap user currUser tail layout where
  laid := (laidOut_cons.1 hjoining.laid).2.2
  fresh other hother := hjoining.fresh other (.tail group hother)
  curr := hjoining.curr
  tail_linked := hjoining.tail_linked
  tail_separate other hother := hjoining.tail_separate other (.tail group hother)

theorem addresses_lowerCells {a : ℕ} (ha : a ∈ addresses (lowerCells user cells)) :
    a ∈ addresses cells := by
  obtain ⟨cell, hcell, rfl⟩ := mem_map.1 ha
  exact mem_map_of_mem ((takeWhile_sublist _).subset hcell)

theorem addresses_upperCells {a : ℕ} (ha : a ∈ addresses (upperCells user cells)) :
    a ∈ addresses cells := by
  obtain ⟨cell, hcell, rfl⟩ := mem_map.1 ha
  exact mem_map_of_mem ((dropWhile_sublist _).subset hcell)

/-- Inserting into the next group: its lower part now runs into the node of
the user, and the heap is ready for the groups behind it. -/
theorem Joining.insert (hjoining : Joining heap user currUser tail (group :: layout)) :
    ∃ result, addUserToListSorted heap (link group.userList none) (some currUser) =
          some (result, link (lowerCells user group.userList) (some currUser)) ∧
      Linked result (lowerCells user group.userList) (some currUser) ∧
      Joining result user currUser
        (if group.userList ≠ [] then upperCells user group.userList else tail)
        layout ∧
      ∀ a, a ≠ currUser → a ∉ addresses group.userList → result.node a = heap.node a := by
  obtain ⟨hgroup, hseparate, hrest⟩ := laidOut_cons.1 hjoining.laid
  obtain ⟨result, hadd, hlower, hupper, hcurr, hframe⟩ :=
    addUserToListSorted_eq hgroup (hjoining.fresh group (by simp)) hjoining.curr
  refine ⟨result, hadd, hlower, ⟨?_, hjoining.skip.fresh, ?_, ?_, ?_⟩, hframe⟩
  · refine hrest.congr fun other hother a ha => hframe a ?_ ?_
    · rintro rfl
      exact hjoining.skip.fresh other hother ha
    · exact fun hmem => hseparate other hother a hmem ha
  · split_ifs <;> simp_all
  · split_ifs
    · exact hupper
    · refine hjoining.tail_linked.congr fun a ha => hframe a ?_ ?_
      · rintro rfl
        exact hjoining.currUser_not_mem_tail ha
      · exact hjoining.tail_separate group (by simp) a ha
  · intro other hother a ha
    split_ifs at ha
    · exact hseparate other hother a (addresses_upperCells ha)
    · exact hjoining.skip.tail_separate other hother a ha

/-- The cells of a group that its own nodes hold after the merge, and where
they lead. -/
def ownCells (user : User) (currUser : ℕ) (mark : CellGroup × Bool) : List (ℕ × User) × Option ℕ :=
  if mark.2 then (lowerCells user mark.1.userList, some currUser)
  else (mark.1.userList, none)

/-- What the merge leaves behind when it started in `heap` and marked the
groups `marks`: each group's own nodes, and the node of the user leading into
the shared tail. -/
structure Merged (heap result : UserHeap) (user : User) (currUser : ℕ)
    (tail : List (ℕ × User)) (marks : List (CellGroup × Bool)) : Prop where
  own : ∀ mark ∈ marks, Linked result (ownCells user currUser mark).1
      (ownCells user currUser mark).2
  shared : Joining result user currUser (sharedTail (upperCells user) marks tail) []
  frame : ∀ a, a ≠ currUser → (∀ mark ∈ marks, a ∉ addresses mark.1.userList) →
    result.node a = heap.node a

def mergedPointers (user : User) (currUser : ℕ) (marks : List (CellGroup × Bool)) : List GroupPtr :=
  marks.map fun mark => mark.1.withMembers
    (link (ownCells user currUser mark).1 (ownCells user currUser mark).2)

theorem joinMarks_groups {Members : Type} (inside : GroupOf Members → Bool)
    (toAdd : List Group) (layout : List (GroupOf Members)) :
    (joinMarks inside toAdd layout).map Prod.fst = layout := by
  induction layout generalizing toAdd with
  | nil => cases toAdd <;> rfl
  | cons group layout ih =>
    cases toAdd with
    | nil => simp [joinMarks, ih]
    | cons target more =>
      rw [joinMarks]
      split_ifs <;> simp [ih]

theorem Merged.skip (hjoining : Joining heap user currUser tail (group :: marks.map Prod.fst))
    (hmerged : Merged heap result user currUser tail marks) :
    Merged heap result user currUser tail ((group, false) :: marks) where
  own mark hmark := by
    rcases mem_cons.1 hmark with rfl | hmark
    · obtain ⟨hgroup, hseparate, -⟩ := laidOut_cons.1 hjoining.laid
      refine hgroup.congr fun a ha => hmerged.frame a ?_ ?_
      · rintro rfl
        exact hjoining.fresh group (by simp) ha
      · exact fun mark hmark => hseparate mark.1 (mem_map_of_mem hmark) a ha
    · exact hmerged.own mark hmark
  shared := by simpa [sharedTail] using hmerged.shared
  frame a ha hmarks := hmerged.frame a ha fun mark hmark =>
    hmarks mark (.tail _ hmark)

theorem Merged.insert {middle : UserHeap}
    (hjoining : Joining heap user currUser tail (group :: marks.map Prod.fst))
    (hlower : Linked middle (lowerCells user group.userList) (some currUser))
    (hframe : ∀ a, a ≠ currUser → a ∉ addresses group.userList → middle.node a = heap.node a)
    (hmerged : Merged middle result user currUser
      (if group.userList ≠ [] then upperCells user group.userList else tail) marks) :
    Merged heap result user currUser tail ((group, true) :: marks) where
  own mark hmark := by
    rcases mem_cons.1 hmark with rfl | hmark
    · obtain ⟨-, hseparate, -⟩ := laidOut_cons.1 hjoining.laid
      refine hlower.congr fun a ha => hmerged.frame a ?_ ?_
      · rintro rfl
        exact hjoining.fresh group (by simp) (addresses_lowerCells ha)
      · exact fun mark hmark => hseparate mark.1 (mem_map_of_mem hmark) a
          (addresses_lowerCells ha)
    · exact hmerged.own mark hmark
  shared := by simpa [sharedTail] using hmerged.shared
  frame a ha hmarks := by
    rw [hmerged.frame a ha fun mark hmark =>
      hmarks mark (.tail _ hmark)]
    exact hframe a ha (hmarks (group, true) (by simp))

theorem joinLoop_nil (heap : UserHeap) (groups : List GroupPtr) :
    joinLoop currUser heap [] groups = some (heap, groups) := by
  cases groups <;> rfl

theorem joinLoop_merged (hjoining : Joining heap user currUser tail layout) (toAdd : List Group) :
    ∃ result, joinLoop currUser heap toAdd (pointers layout) = some (result,
        mergedPointers user currUser (joinMarks (insideCells user) toAdd layout)) ∧
      Merged heap result user currUser tail (joinMarks (insideCells user) toAdd layout) := by
  induction layout generalizing heap tail toAdd with
  | nil =>
    refine ⟨heap, ?_, ?_, ?_, fun _ _ _ => rfl⟩ <;> cases toAdd
    all_goals first | rfl | exact hjoining | simp [joinMarks]
  | cons group layout ih =>
    have hgroups := joinMarks_groups (insideCells user)
    cases toAdd with
    | nil =>
      obtain ⟨result, hloop, hmerged⟩ := ih hjoining.skip []
      rw [joinLoop_nil] at hloop
      obtain ⟨rfl, hpointers⟩ := Prod.mk.inj (Option.some.inj hloop)
      refine ⟨heap, ?_, hmerged.skip (by rwa [hgroups])⟩
      simp only [pointers, map_cons] at hpointers ⊢
      rw [hpointers]
      rfl
    | cons target more =>
      by_cases hmeet : compareGroups target group = 0
      · have hmarks : joinMarks (insideCells user) (target :: more)
            (group :: layout) = (group, !insideCells user group) ::
              joinMarks (insideCells user) more layout := if_pos hmeet
        have hgroup := (laidOut_cons.1 hjoining.laid).1
        have htest := isUserInGroup_eq user group hgroup
        rw [hmarks]
        cases hinside : insideCells user group with
        | true =>
          obtain ⟨result, hloop, hmerged⟩ := ih hjoining.skip more
          refine ⟨result, ?_, hmerged.skip (by rwa [hgroups])⟩
          rw [insideCells] at hinside
          simp only [pointers] at hloop
          simp [pointers, joinLoop, hmeet, hjoining.curr, htest, hinside,
            hloop, mergedPointers, ownCells]
        | false =>
          obtain ⟨middle, hadd, hlower, hnext, hframe⟩ := hjoining.insert
          obtain ⟨result, hloop, hmerged⟩ := ih hnext more
          refine ⟨result, ?_, Merged.insert (by rwa [hgroups]) hlower hframe
            hmerged⟩
          rw [insideCells] at hinside
          simp only [pointers] at hloop
          simp [pointers, joinLoop, hmeet, hjoining.curr, htest, hinside,
            hadd, hloop, mergedPointers, ownCells]
      · obtain ⟨result, hloop, hmerged⟩ := ih hjoining.skip (target :: more)
        have hmarks : joinMarks (insideCells user) (target :: more)
            (group :: layout) = (group, false) ::
              joinMarks (insideCells user) (target :: more) layout := if_neg hmeet
        rw [hmarks]
        refine ⟨result, ?_, hmerged.skip (by rwa [hgroups])⟩
        simp only [pointers] at hloop
        simp [pointers, joinLoop, hmeet, hloop, mergedPointers, ownCells]

end Merge

end Xv6Users.MemberLists
