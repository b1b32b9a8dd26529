import IntelX86Kernel.DoublyLinked
import IntelX86Kernel.Effects
import IntelX86Kernel.StablePriority
import IntelX86Kernel.Transition
import Mathlib.Data.Fintype.EquivFin

/-! The macros of shared/queue.h on the pointers they read and write. -/

namespace IntelX86Kernel

open DoublyLinked StablePriority Transition

abbrev Pointer := BitVec 32

structure LinkFields (P : Type) where
  prev : Pointer → Pointer
  next : Pointer → Pointer
  priority : Pointer → P

/-- `diff` is the difference between an element and its link. -/
def queueEntry (diff link : Pointer) : Pointer := link - diff

namespace LinkFields

variable {P : Type} (m : LinkFields P)

def setPrev (link v : Pointer) : LinkFields P := { m with prev := Function.update m.prev link v }

def setNext (link v : Pointer) : LinkFields P := { m with next := Function.update m.next link v }

/-- `INIT_LIST_HEAD(head)` -/
def initListHead (head : Pointer) : LinkFields P := (m.setNext head head).setPrev head head

variable (head diff : Pointer)

def scan [LinearOrder P] (elem : Pointer) : Nat → Pointer → Except Fault Pointer
  | 0, _ => .error .hang
  | turns + 1, cur =>
      let cur := m.next cur
      if cur ≠ head ∧ m.priority (queueEntry diff cur) < m.priority elem then scan elem turns cur
      else .ok cur

/-- `queue_add`: there are no more links than addresses. -/
def queueAdd [LinearOrder P] (elem : Pointer) : Except Fault (LinkFields P) :=
  let link := elem + diff
  if m.prev link = 0 ∧ m.next link = 0 then do
    let cur ← m.scan head diff elem (2 ^ 32) head
    let m := m.setNext link cur
    let m := m.setPrev link (m.prev cur)
    let m := m.setNext (m.prev cur) link
    .ok (m.setPrev cur link)
  else .error .linksAssertion

/-- `__queue_out` -/
def queueOut : Pointer × LinkFields P :=
  let ret := m.prev head
  if m.next head = head then (0, m)
  else
    let m := m.setPrev head (m.prev (m.prev head))
    let m := m.setNext (m.prev head) head
    let m := m.setPrev ret 0
    let m := m.setNext ret 0
    (ret - diff, m)

/-- `queue_del` -/
def queueDel (elem : Pointer) : Except Fault (LinkFields P) :=
  let link := elem + diff
  if m.prev link ≠ 0 ∧ m.next link ≠ 0 then
    let m := m.setNext (m.prev link) (m.next link)
    let m := m.setPrev (m.next link) (m.prev link)
    let m := m.setNext link 0
    .ok (m.setPrev link 0)
  else .error .linksAssertion

end LinkFields

structure LinkedQueue (P : Type) where
  fields : LinkFields P
  arrivals : List Pointer

namespace LinkedQueue

/-- `other` is the rest of the program: any writes to links and priorities. -/
inductive Event (P : Type) where
  | add (elem : Pointer)
  | out
  | del (elem : Pointer)
  | other (links : List (Pointer × Pointer × Pointer)) (priorities : List (Pointer × P))

variable {P : Type} (head diff : Pointer) (q : LinkedQueue P)

def Unlinked (elem : Pointer) : Prop :=
  (elem ≠ 0 ∧ elem + diff ≠ 0) ∧ q.fields.prev (elem + diff) = 0 ∧ q.fields.next (elem + diff) = 0

instance unlinkedDecidable (elem : Pointer) : Decidable (q.Unlinked diff elem) :=
  inferInstanceAs (Decidable (_ ∧ _))

def links : List Pointer := head :: q.arrivals.map (· + diff)

def writeLinks (m : LinkFields P) : List (Pointer × Pointer × Pointer) → LinkFields P
  | [] => m
  | (link, prev, next) :: rest => writeLinks ((m.setPrev link prev).setNext link next) rest

def writePriorities (m : LinkFields P) : List (Pointer × P) → LinkFields P
  | [] => m
  | (elem, priority) :: rest =>
      writePriorities { m with priority := Function.update m.priority elem priority } rest

def step [LinearOrder P] : Event P → Except Fault (LinkedQueue P × Option Pointer)
  | .add elem =>
      if q.Unlinked diff elem then do
        let fields ← q.fields.queueAdd head diff elem
        .ok (⟨fields, q.arrivals ++ [elem]⟩, none)
      else .error .disabled
  | .out =>
      let (elem, fields) := q.fields.queueOut head diff
      .ok (⟨fields, q.arrivals.erase elem⟩, some elem)
  | .del elem =>
      if elem ∈ q.arrivals then do
        let fields ← q.fields.queueDel diff elem
        .ok (⟨fields, q.arrivals.erase elem⟩, none)
      else .error .disabled
  | .other links priorities =>
      if (links.all fun w => decide (w.1 ∉ q.links head diff)) &&
          priorities.all fun w => decide (w.1 ∉ q.arrivals) then
        .ok ({ q with fields := writePriorities (writeLinks q.fields links) priorities }, none)
      else .error .disabled

def Initial (q : LinkedQueue P) : Prop :=
  head ≠ 0 ∧ (∃ m : LinkFields P, q.fields = m.initListHead head) ∧ q.arrivals = []

section Fields

variable {head diff : Pointer} {m m' : LinkFields P} {elem cur : Pointer} {l : List Pointer}
  {turns : Nat}

theorem entry_link : queueEntry diff (elem + diff) = elem :=
  BitVec.add_sub_cancel ..

/-- The loop of `queue_add` ends at the first element that is not below, or at the head. -/
theorem scan_eq [LinearOrder P] (elem : Pointer) (path : Path m.next cur (l.map (· + diff)) head)
    (outside : head ∉ l.map (· + diff)) (enough : l.length < turns) :
    m.scan head diff elem turns cur =
      .ok (((l.dropWhile fun x => decide (m.priority x < m.priority elem)).map
        (· + diff)).headD head) := by
  induction l generalizing cur turns with
  | nil =>
      cases turns with
      | zero => cases enough
      | succ turns =>
          have here : m.next cur = head := path
          simp [LinkFields.scan, here]
  | cons x rest ih =>
      cases turns with
      | zero => cases enough
      | succ turns =>
          obtain ⟨here, path⟩ := path
          rw [List.map_cons, List.mem_cons, not_or] at outside
          have next := ih path outside.2 (Nat.lt_of_succ_lt_succ enough)
          simp only [LinkFields.scan, here, entry_link, ne_eq, Ne.symm outside.1, not_false_iff,
            true_and]
          by_cases below : m.priority x < m.priority elem
          · rw [if_pos below, next, List.dropWhile_cons_of_pos (by simpa using below)]
          · rw [if_neg below, List.dropWhile_cons_of_neg (by simpa using below)]
            rfl

theorem length_lt (circular : Circular m.prev m.next head (l.map (· + diff))) :
    l.length < 2 ^ 32 := by
  have injective : Function.Injective (BitVec.toFin (w := 32)) := fun _ _ same =>
    BitVec.eq_of_toFin_eq same
  have distinct := circular.nodup.map injective
  have bound := distinct.length_le_card
  rw [Fintype.card_fin, List.length_map, List.length_cons, List.length_map] at bound
  exact bound

theorem place_eq [LinearOrder P] : place m.priority elem l =
    (l.takeWhile fun x => decide (m.priority x < m.priority elem)) ++
      elem :: l.dropWhile fun x => decide (m.priority x < m.priority elem) := by
  rw [place, List.orderedInsert_eq_take_drop]
  simp only [not_le]

/-- What an operation leaves: the links of `l`, and every link outside `touched` as before. -/
structure Relinks (head diff : Pointer) (m m' : LinkFields P) (l touched : List Pointer) :
    Prop where
  circular : Circular m'.prev m'.next head (l.map (· + diff))
  priority : m'.priority = m.priority
  frame : ∀ a, a ∉ touched → m'.prev a = m.prev a ∧ m'.next a = m.next a

theorem queueAdd_eq [LinearOrder P] {left right : List Pointer}
    (null : m.prev (elem + diff) = 0 ∧ m.next (elem + diff) = 0)
    (found : m.scan head diff elem (2 ^ 32) head = .ok (right.headD head))
    (circular : Circular m.prev m.next head (left ++ right))
    (fresh : elem + diff ∉ head :: (left ++ right)) :
    m.queueAdd head diff elem = .ok
      { prev := Function.update (Function.update m.prev (elem + diff) (left.getLastD head))
          (right.headD head) (elem + diff)
        next := Function.update (Function.update m.next (elem + diff) (right.headD head))
          (left.getLastD head) (elem + diff)
        priority := m.priority } := by
  obtain ⟨-, before⟩ := circular.neighbours
  have other : right.headD head ≠ elem + diff := by
    intro same
    have member : right.headD head ∈ head :: (left ++ right) := headD_mem_append
    exact fresh (same ▸ member)
  have last : Function.update m.prev (elem + diff) (left.getLastD head) (right.headD head) =
      left.getLastD head := by
    rw [Function.update_of_ne other, before]
  rw [LinkFields.queueAdd, if_pos null]
  refine bind_eq_ok.mpr ⟨_, found, ?_⟩
  simp only [LinkFields.setNext, LinkFields.setPrev, before, last]

theorem queueAdd_ok [LinearOrder P] (circular : Circular m.prev m.next head (l.map (· + diff)))
    (fresh : elem + diff ∉ head :: l.map (· + diff))
    (null : m.prev (elem + diff) = 0 ∧ m.next (elem + diff) = 0) :
    ∃ m', m.queueAdd head diff elem = .ok m' ∧
      Relinks head diff m m' (place m.priority elem l)
        ((elem + diff) :: head :: l.map (· + diff)) := by
  have found := scan_eq elem circular.forward (List.nodup_cons.mp circular.nodup).1
    (length_lt circular)
  have split := List.takeWhile_append_dropWhile
    (p := fun x => decide (m.priority x < m.priority elem)) (l := l)
  rw [place_eq]
  generalize l.takeWhile (fun x => decide (m.priority x < m.priority elem)) = pre at split ⊢
  generalize l.dropWhile (fun x => decide (m.priority x < m.priority elem)) = post at split found ⊢
  subst split
  rw [List.map_append] at circular fresh ⊢
  refine ⟨_, queueAdd_eq null found circular fresh, ?_, rfl, ?_⟩
  · rw [List.map_append, List.map_cons]
    exact circular.insert fresh
  · intro a outside
    rw [List.mem_cons, not_or] at outside
    obtain ⟨other, outside⟩ := outside
    have right : a ≠ (post.map (· + diff)).headD head := by
      rintro rfl
      exact outside headD_mem_append
    have left : a ≠ (pre.map (· + diff)).getLastD head := by
      rintro rfl
      exact outside getLastD_mem_append
    constructor
    · exact (Function.update_of_ne right _ _).trans (Function.update_of_ne other _ _)
    · exact (Function.update_of_ne left _ _).trans (Function.update_of_ne other _ _)

def withoutLink (m : LinkFields P) (p x q : Pointer) : LinkFields P where
  prev := Function.update (Function.update m.prev q p) x 0
  next := Function.update (Function.update m.next p q) x 0
  priority := m.priority

theorem withoutLink_relinks {pre post : List Pointer}
    (circular : Circular m.prev m.next head ((pre ++ elem :: post).map (· + diff))) :
    Relinks head diff m (withoutLink m ((pre.map (· + diff)).getLastD head) (elem + diff)
      ((post.map (· + diff)).headD head)) (pre ++ post)
      (head :: (pre ++ elem :: post).map (· + diff)) := by
  rw [List.map_append, List.map_cons] at circular ⊢
  obtain ⟨before, behind⟩ := circular.around
  have removed := circular.remove
  rw [before, behind] at removed
  have gone := circular.fresh
  refine ⟨?_, rfl, ?_⟩
  · rw [List.map_append]
    apply removed.congr
    intro a member
    have other : a ≠ elem + diff := fun same => gone (same ▸ member)
    exact ⟨Function.update_of_ne other _ _, Function.update_of_ne other _ _⟩
  · intro a outside
    have inside {b : Pointer} (member : b ∈ head :: (pre.map (· + diff) ++ post.map (· + diff))) :
        a ≠ b := by
      rintro rfl
      exact outside (mem_middle member)
    have other : a ≠ elem + diff := by
      rintro rfl
      exact outside (List.mem_cons_of_mem _ (by simp))
    constructor
    · exact (Function.update_of_ne other _ _).trans
        (Function.update_of_ne (inside headD_mem_append) _ _)
    · exact (Function.update_of_ne other _ _).trans
        (Function.update_of_ne (inside getLastD_mem_append) _ _)

theorem queueOut_nil (circular : Circular m.prev m.next head []) :
    m.queueOut head diff = (0, m) := by
  have here : m.next head = head := circular.forward
  rw [LinkFields.queueOut]
  exact if_pos here

theorem queueOut_eq {init : List Pointer}
    (circular : Circular m.prev m.next head ((init ++ [elem]).map (· + diff))) :
    m.queueOut head diff =
      (elem, withoutLink m ((init.map (· + diff)).getLastD head) (elem + diff) head) := by
  rw [List.map_append] at circular
  have nonempty : m.next head ≠ head := by
    have whole : Path m.next head ([] ++ (init.map (· + diff) ++ [elem].map (· + diff))) head :=
      circular.forward
    have first : m.next head = (init.map (· + diff) ++ [elem].map (· + diff)).headD head :=
      whole.split.1
    have member : (init.map (· + diff) ++ [elem].map (· + diff)).headD head ∈
        init.map (· + diff) ++ [elem].map (· + diff) := by
      cases init <;> simp
    rw [first]
    exact fun same => (List.nodup_cons.mp circular.nodup).1 (same ▸ member)
  obtain ⟨before, -⟩ := circular.around
  have last : m.prev head = elem + diff := by
    have whole : init.map (· + diff) ++ [elem].map (· + diff) =
        (init.map (· + diff) ++ [elem + diff]) ++ [] := by simp
    rw [whole] at circular
    have behind := circular.neighbours.2
    rw [List.getLastD_concat] at behind
    exact behind
  rw [LinkFields.queueOut, if_neg nonempty]
  simp only [LinkFields.setPrev, LinkFields.setNext, withoutLink, last, before,
    Function.update_self]
  rw [show elem + diff - diff = elem from entry_link]

theorem queueDel_eq {pre post : List Pointer}
    (circular : Circular m.prev m.next head ((pre ++ elem :: post).map (· + diff)))
    (solid : 0 ∉ head :: (pre ++ elem :: post).map (· + diff)) :
    m.queueDel diff elem = .ok (withoutLink m ((pre.map (· + diff)).getLastD head) (elem + diff)
      ((post.map (· + diff)).headD head)) := by
  rw [List.map_append, List.map_cons] at circular solid
  obtain ⟨before, behind⟩ := circular.around
  have inside {a : Pointer}
      (member : a ∈ head :: (pre.map (· + diff) ++ post.map (· + diff))) :
      a ≠ 0 ∧ elem + diff ≠ a := by
    constructor
    · rintro rfl
      exact solid (mem_middle member)
    · rintro rfl
      exact circular.fresh member
  have left := inside getLastD_mem_append
  have right := inside headD_mem_append
  have linked : m.prev (elem + diff) ≠ 0 ∧ m.next (elem + diff) ≠ 0 := by
    rw [before, behind]
    exact ⟨left.1, right.1⟩
  rw [LinkFields.queueDel, if_pos linked]
  simp only [LinkFields.setPrev, LinkFields.setNext, withoutLink, before, behind,
    Function.update_of_ne left.2]

theorem writeLinks_priority {writes : List (Pointer × Pointer × Pointer)} :
    (writeLinks m writes).priority = m.priority := by
  induction writes generalizing m with
  | nil => rfl
  | cons w rest ih => exact ih

theorem writeLinks_outside (writes : List (Pointer × Pointer × Pointer)) {a : Pointer}
    (outside : ∀ w ∈ writes, w.1 ≠ a) :
    (writeLinks m writes).prev a = m.prev a ∧ (writeLinks m writes).next a = m.next a := by
  induction writes generalizing m with
  | nil => exact ⟨rfl, rfl⟩
  | cons w rest ih =>
      obtain ⟨prev, next⟩ := ih fun v member => outside v (List.mem_cons_of_mem _ member)
      have other := (outside w List.mem_cons_self).symm
      exact ⟨prev.trans (Function.update_of_ne other _ _),
        next.trans (Function.update_of_ne other _ _)⟩

theorem writePriorities_links (writes : List (Pointer × P)) :
    (writePriorities m writes).prev = m.prev ∧ (writePriorities m writes).next = m.next := by
  induction writes generalizing m with
  | nil => exact ⟨rfl, rfl⟩
  | cons w rest ih => exact ih

theorem writePriorities_outside {writes : List (Pointer × P)} {a : Pointer}
    (outside : ∀ w ∈ writes, w.1 ≠ a) : (writePriorities m writes).priority a = m.priority a := by
  induction writes generalizing m with
  | nil => rfl
  | cons w rest ih =>
      have later := ih (m := { m with priority := Function.update m.priority w.1 w.2 })
        fun v member => outside v (List.mem_cons_of_mem _ member)
      exact later.trans (Function.update_of_ne (outside w List.mem_cons_self).symm _ _)

end Fields

variable [LinearOrder P] {head diff q} {q' : LinkedQueue P} {l : List Pointer} {e : Pointer}

structure Queued (head diff : Pointer) (q : LinkedQueue P) (l : List Pointer) : Prop where
  circular : Circular q.fields.prev q.fields.next head (l.map (· + diff))
  arranged : Arranged q.fields.priority q.arrivals l
  solid : 0 ∉ head :: l.map (· + diff)
  elements : 0 ∉ l

theorem Queued.nodup (queued : q.Queued head diff l) : q.arrivals.Nodup := by
  have distinct := (List.nodup_cons.mp queued.circular.nodup).2
  exact queued.arranged.perm.nodup_iff.mp distinct.of_map

theorem Queued.links_perm (queued : q.Queued head diff l) :
    (q.links head diff).Perm (head :: l.map (· + diff)) :=
  ((queued.arranged.perm.map _).cons head).symm

def Untouched (q q' : LinkedQueue P) (touched : List Pointer) : Prop :=
  q'.fields.priority = q.fields.priority ∧
    ∀ a, a ∉ touched → q'.fields.prev a = q.fields.prev a ∧ q'.fields.next a = q.fields.next a

theorem Queued.add (queued : q.Queued head diff l) (unlinked : q.Unlinked diff e) :
    ∃ q', q.step head diff (.add e) = .ok (q', none) ∧ q'.arrivals = q.arrivals ++ [e] ∧
      q.Untouched q' ((e + diff) :: q.links head diff) ∧
      q'.Queued head diff (place q.fields.priority e l) := by
  obtain ⟨⟨object, solid⟩, null⟩ := unlinked
  have fresh : e + diff ∉ head :: l.map (· + diff) := by
    intro member
    have inside := queued.circular.prev_mem member
    rw [null.1] at inside
    exact queued.solid inside
  obtain ⟨fields, run, relinks⟩ := queueAdd_ok queued.circular fresh null
  refine ⟨⟨fields, q.arrivals ++ [e]⟩, ?_, rfl, ⟨relinks.priority, ?_⟩, relinks.circular, ?_, ?_,
    ?_⟩
  · rw [step, if_pos ⟨⟨object, solid⟩, null⟩]
    exact bind_eq_ok.mpr ⟨fields, run, rfl⟩
  · intro a outside
    apply relinks.frame
    rw [List.mem_cons, ← queued.links_perm.mem_iff, ← List.mem_cons]
    exact outside
  · rw [show (⟨fields, q.arrivals ++ [e]⟩ : LinkedQueue P).fields.priority = q.fields.priority
      from relinks.priority]
    exact queued.arranged.add
  · intro member
    rcases List.mem_cons.mp member with zero | inside
    · exact queued.solid (List.mem_cons.mpr (.inl zero))
    · obtain ⟨x, placed, zero⟩ := List.mem_map.mp inside
      rcases mem_place.mp placed with rfl | old
      · exact solid zero
      · exact queued.solid (List.mem_cons_of_mem _ (zero ▸ List.mem_map_of_mem old))
  · intro member
    rcases mem_place.mp member with zero | old
    · exact object zero.symm
    · exact queued.elements old

theorem Queued.without {pre post : List Pointer} {fields : LinkFields P}
    (queued : q.Queued head diff (pre ++ e :: post))
    (fields_eq : fields = withoutLink q.fields ((pre.map (· + diff)).getLastD head) (e + diff)
      ((post.map (· + diff)).headD head)) :
    q.Untouched ⟨fields, q.arrivals.erase e⟩ (q.links head diff) ∧
      (⟨fields, q.arrivals.erase e⟩ : LinkedQueue P).Queued head diff (pre ++ post) ∧
      (⟨fields, q.arrivals.erase e⟩ : LinkedQueue P).Unlinked diff e := by
  subst fields_eq
  have relinks := withoutLink_relinks queued.circular
  have distinct := queued.arranged.perm.nodup_iff.mpr queued.nodup
  have front : e ∉ pre := fun member =>
    (List.nodup_append.mp distinct).2.2 e member e List.mem_cons_self rfl
  have erased : (pre ++ e :: post).erase e = pre ++ post := by
    rw [List.erase_append_right _ front, List.erase_cons_head]
  refine ⟨⟨rfl, ?_⟩, ⟨relinks.circular, ?_, ?_, ?_⟩, ?_⟩
  · intro a outside
    apply relinks.frame
    rw [← queued.links_perm.mem_iff]
    exact outside
  · have arranged := queued.arranged.erase (e := e) queued.nodup
    rw [erased] at arranged
    exact arranged
  · intro member
    apply queued.solid
    rw [List.map_append] at member ⊢
    exact mem_middle member
  · intro member
    have part := (List.Sublist.append_left (List.sublist_cons_self e post) pre).subset
    exact queued.elements (part member)
  · have inside : e ∈ pre ++ e :: post := List.mem_append_right _ List.mem_cons_self
    refine ⟨⟨?_, ?_⟩, Function.update_self .., Function.update_self ..⟩
    · exact fun zero => queued.elements (zero ▸ inside)
    · intro zero
      have link := List.mem_map_of_mem (f := (· + diff)) inside
      exact queued.solid (List.mem_cons_of_mem _ (zero ▸ link))

theorem Queued.out_empty (queued : q.Queued head diff []) :
    q.step head diff .out = .ok (q, some 0) := by
  have empty : q.arrivals = [] := List.nil_perm.mp queued.arranged.perm
  have erased : q.arrivals.erase 0 = q.arrivals := by rw [empty, List.erase_nil]
  rw [step, queueOut_nil queued.circular]
  dsimp only
  rw [erased]

theorem Queued.out {init : List Pointer} (queued : q.Queued head diff (init ++ [e])) :
    ∃ q', q.step head diff .out = .ok (q', some e) ∧ q'.arrivals = q.arrivals.erase e ∧
      OldestGreatest q.fields.priority q.arrivals e ∧ q'.Unlinked diff e ∧
      q.Untouched q' (q.links head diff) ∧ q'.Queued head diff init := by
  obtain ⟨untouched, queued', unlinked⟩ := queued.without rfl
  rw [List.append_nil] at queued'
  refine ⟨_, ?_, rfl, queued.arranged.last, unlinked, untouched, queued'⟩
  rw [step, queueOut_eq queued.circular]
  rfl

theorem Queued.del (queued : q.Queued head diff l) (member : e ∈ q.arrivals) :
    ∃ q', q.step head diff (.del e) = .ok (q', none) ∧ q'.arrivals = q.arrivals.erase e ∧
      q'.Unlinked diff e ∧ q.Untouched q' (q.links head diff) ∧ ∃ l', q'.Queued head diff l' := by
  obtain ⟨pre, post, rfl⟩ := List.append_of_mem (queued.arranged.perm.mem_iff.mpr member)
  obtain ⟨untouched, queued', unlinked⟩ := queued.without rfl
  refine ⟨_, ?_, rfl, unlinked, untouched, _, queued'⟩
  rw [step, if_pos member]
  exact bind_eq_ok.mpr ⟨_, queueDel_eq queued.circular queued.solid, rfl⟩

theorem Queued.other {links : List (Pointer × Pointer × Pointer)} {priorities : List (Pointer × P)}
    {o : Option Pointer} (queued : q.Queued head diff l)
    (taken : q.step head diff (.other links priorities) = .ok (q', o)) :
    q'.Queued head diff l := by
  rw [step] at taken
  split at taken
  · next allowed =>
    simp only [Bool.and_eq_true, List.all_eq_true, decide_eq_true_eq] at allowed
    cases taken
    obtain ⟨prev, next⟩ := writePriorities_links (m := writeLinks q.fields links)
      priorities
    refine ⟨?_, ?_, queued.solid, queued.elements⟩
    · apply queued.circular.congr
      intro a member
      have kept := writeLinks_outside (m := q.fields) links (a := a)
        fun w written same => allowed.1 w written (same ▸ queued.links_perm.mem_iff.mpr member)
      exact ⟨(congrFun prev a).trans kept.1, (congrFun next a).trans kept.2⟩
    · apply queued.arranged.congr
      intro x member
      have kept := writePriorities_outside (m := writeLinks q.fields links)
        fun w written same => allowed.2 w written (same ▸ member)
      rw [writeLinks_priority] at kept
      exact kept
  · cases taken

/-- What queue.h promises in a state. -/
structure Behaves (head diff : Pointer) (q : LinkedQueue P) : Prop where
  ring : ∃ l : List Pointer, Circular q.fields.prev q.fields.next head (l.map (· + diff)) ∧
    l.Perm q.arrivals ∧ l.Pairwise fun x y => q.fields.priority x ≤ q.fields.priority y
  add : ∀ e, q.Unlinked diff e → ∃ q', q.step head diff (.add e) = .ok (q', none) ∧
    q'.arrivals = q.arrivals ++ [e] ∧ q.Untouched q' ((e + diff) :: q.links head diff)
  del : ∀ e ∈ q.arrivals, ∃ q', q.step head diff (.del e) = .ok (q', none) ∧
    q'.arrivals = q.arrivals.erase e ∧ q'.Unlinked diff e ∧ q.Untouched q' (q.links head diff)
  outEmpty : q.arrivals = [] → q.step head diff .out = .ok (q, some 0)
  out : q.arrivals ≠ [] → ∃ e q', q.step head diff .out = .ok (q', some e) ∧ e ≠ 0 ∧
    OldestGreatest q.fields.priority q.arrivals e ∧ q'.arrivals = q.arrivals.erase e ∧
    q'.Unlinked diff e ∧ q.Untouched q' (q.links head diff)

theorem Queued.behaves (queued : q.Queued head diff l) : q.Behaves head diff := by
  constructor
  · exact ⟨l, queued.circular, queued.arranged.perm, queued.arranged.sorted⟩
  · intro e unlinked
    obtain ⟨q', run, arrivals, untouched, -⟩ := queued.add unlinked
    exact ⟨q', run, arrivals, untouched⟩
  · intro e member
    obtain ⟨q', run, arrivals, unlinked, untouched, -⟩ := queued.del member
    exact ⟨q', run, arrivals, unlinked, untouched⟩
  · intro empty
    have none : l = [] := by
      have perm := queued.arranged.perm
      rw [empty] at perm
      exact perm.eq_nil
    subst none
    exact queued.out_empty
  · intro nonempty
    cases l using List.reverseRecOn with
    | nil => exact absurd (List.nil_perm.mp queued.arranged.perm) nonempty
    | append_singleton init e =>
        obtain ⟨q', run, arrivals, greatest, unlinked, untouched, -⟩ := queued.out
        exact ⟨e, q', run, unlinked.1.1, greatest, arrivals, unlinked, untouched⟩

theorem Queued.step {event : Event P} {o : Option Pointer} (queued : q.Queued head diff l)
    (taken : q.step head diff event = .ok (q', o)) : ∃ l', q'.Queued head diff l' := by
  cases event with
  | add e =>
      by_cases unlinked : q.Unlinked diff e
      · obtain ⟨q₁, run, -, -, queued'⟩ := queued.add unlinked
        rw [run] at taken
        cases taken
        exact ⟨_, queued'⟩
      · rw [LinkedQueue.step, if_neg unlinked] at taken
        cases taken
  | out =>
      cases l using List.reverseRecOn with
      | nil =>
          rw [queued.out_empty] at taken
          cases taken
          exact ⟨_, queued⟩
      | append_singleton init e =>
          obtain ⟨q₁, run, -, -, -, -, queued'⟩ := queued.out
          rw [run] at taken
          cases taken
          exact ⟨_, queued'⟩
  | del e =>
      by_cases member : e ∈ q.arrivals
      · obtain ⟨q₁, run, -, -, -, queued'⟩ := queued.del member
        rw [run] at taken
        cases taken
        exact queued'
      · rw [LinkedQueue.step, if_neg member] at taken
        cases taken
  | other links priorities => exact ⟨l, queued.other taken⟩

/-- From an initialised head on, whatever is added, taken out and deleted, and whatever the rest
of the program does elsewhere. -/
theorem linked_queue_is_stable
    {history : List (Occurrence (LinkedQueue P) (Event P) (Option Pointer))}
    (run : Run (fun q => q.step head diff) (Initial head) history q) : q.Behaves head diff := by
  have queued : ∃ l, q.Queued head diff l := by
    apply run.stateInvariant
    · rintro q ⟨solid, ⟨m, fields⟩, empty⟩
      have forward : q.fields.next head = head := by
        rw [fields]
        exact Function.update_self ..
      have backward : q.fields.prev head = head := by
        rw [fields]
        exact Function.update_self ..
      refine ⟨[], circular_nil forward backward, ?_, ?_, List.not_mem_nil⟩
      · rw [empty]
        exact .nil
      · simpa using solid.symm
    · rintro q e o q' ⟨l, queued⟩ taken
      exact queued.step taken
  obtain ⟨l, queued⟩ := queued
  exact queued.behaves

def sample : LinkedQueue Nat where
  fields := LinkFields.initListHead
    ⟨fun _ => 0, fun _ => 0, fun e => if e = 0x400 then 3 else 5⟩ 0x100
  arrivals := []

theorem linked_queue_is_stable_three :
    ∃ history q, Run (fun q : LinkedQueue Nat => q.step 0x100 8) (Initial 0x100) history q ∧
      q.arrivals = [0x200, 0x300, 0x400] ∧ q.Behaves 0x100 8 := by
  have initial : sample.Initial 0x100 := ⟨by decide, ⟨_, rfl⟩, rfl⟩
  obtain ⟨history, q, run, checked⟩ := reaches_run (fun q : LinkedQueue Nat => q.step 0x100 8)
    initial [.add 0x200, .add 0x300, .add 0x400]
    (fun _ q => decide (q.arrivals = [0x200, 0x300, 0x400])) (by decide +kernel)
  exact ⟨history, q, run, of_decide_eq_true checked, linked_queue_is_stable run⟩

/-- The list model of `queue_add` puts an element where the macro links it. -/
theorem insertSorted_place {m : LinkFields Nat} :
    insertSorted (fun a => some (m.priority (BitVec.ofNat 32 a))) e.toNat (m.priority e)
      (l.map BitVec.toNat) = .ok ((place m.priority e l).map BitVec.toNat) := by
  induction l with
  | nil => rfl
  | cons y rest ih =>
      rw [place, List.orderedInsert_cons, List.map_cons, insertSorted]
      simp only [BitVec.ofNat_toNat, BitVec.setWidth_eq]
      by_cases below : m.priority y < m.priority e
      · rw [if_pos below, ih, if_neg (Nat.not_le.mpr below)]
        rfl
      · rw [if_neg below, if_pos (Nat.le_of_not_lt below)]
        rfl

end LinkedQueue

end IntelX86Kernel
