import IntelX86Kernel.Assertions
import IntelX86Kernel.Election
import IntelX86Kernel.Lineage
import IntelX86Kernel.LinkedQueue
import IntelX86Kernel.Pstree

/-! `free_children` takes the children out from the tail of the list that it traverses from
the head. -/

namespace IntelX86Kernel

open DoublyLinked

namespace LinkFields

variable {P σ : Type} (m : LinkFields P) (head diff : Pointer)

/-- `link->next`, for a link that is there. -/
def follow (link : Pointer) : Except Fault Pointer :=
  if link = 0 then .error .nullDeref else .ok (m.next link)

/-- The rounds of `queue_for_each(it, head, type, field)` with a body that begins with
`it = queue_out(head, type, field); if (it == NULL) return;`. The test of the macro compares
addresses, its step reads the link of the element that the body has left in `it`. -/
def outRounds (body : Pointer → σ → Except Fault σ) :
    Nat → Pointer → LinkFields P → σ → Except Fault (LinkFields P × σ)
  | 0, _, _, _ => .error .hang
  | turns + 1, it, m, s =>
      if it + diff = head then .ok (m, s)
      else
        let (elem, m) := m.queueOut head diff
        if elem = 0 then .ok (m, s)
        else do
          let s ← body elem s
          let next ← m.follow (elem + diff)
          outRounds body turns (queueEntry diff next) m s

def forEachOut (body : Pointer → σ → Except Fault σ) (s : σ) :
    Except Fault (LinkFields P × σ) := do
  let first ← m.follow head
  outRounds head diff body (2 ^ 32) (queueEntry diff first) m s

section Rounds

variable {m} {m' : LinkFields P} {head diff : Pointer} {body : Pointer → σ → Except Fault σ}
  {s s' : σ} {l : List Pointer} {it : Pointer} {turns : Nat}

/-- The list is empty, the links of its former elements are cleared, and no other link has
been written. -/
structure Emptied (head diff : Pointer) (m m' : LinkFields P) (l : List Pointer) : Prop where
  ring : Circular m'.prev m'.next head []
  cleared : ∀ e ∈ l, m'.prev (e + diff) = 0 ∧ m'.next (e + diff) = 0
  frame : ∀ a, a ∉ head :: l.map (· + diff) → m'.prev a = m.prev a ∧ m'.next a = m.next a

theorem null_entry : queueEntry diff 0 + diff = 0 := by
  rw [queueEntry, BitVec.sub_add_cancel]

/-- Rounds that do not find the iterator at the head go on until the list is empty. -/
theorem outRounds_eq (circular : Circular m.prev m.next head (l.map (· + diff)))
    (solid : 0 ∉ head :: l.map (· + diff)) (elements : 0 ∉ l) (enough : l.length < turns)
    (inside : it + diff ≠ head)
    (run : l.reverse.foldlM (fun s e => body e s) s = .ok s') :
    ∃ m', outRounds head diff body turns it m s = .ok (m', s') ∧ Emptied head diff m m' l := by
  induction l using List.reverseRecOn generalizing m it s turns with
  | nil =>
      cases turns with
      | zero => cases enough
      | succ turns =>
          cases run
          refine ⟨m, ?_, circular, ?_, fun _ _ => ⟨rfl, rfl⟩⟩
          · rw [outRounds, if_neg inside, LinkedQueue.queueOut_nil circular]
            rfl
          · intro e member
            cases member
  | append_singleton init e ih =>
      cases turns with
      | zero => cases enough
      | succ turns =>
          rw [List.reverse_concat, List.foldlM_cons] at run
          obtain ⟨s₁, first, rest⟩ := bind_eq_ok.mp run
          have object : e ≠ 0 := by
            rintro rfl
            exact elements (List.mem_append_right _ List.mem_cons_self)
          have linked : e + diff ≠ 0 := by
            intro zero
            have member : e + diff ∈ (init ++ [e]).map (· + diff) :=
              List.mem_map_of_mem (List.mem_append_right _ List.mem_cons_self)
            exact solid (List.mem_cons_of_mem _ (zero ▸ member))
          have relinks := LinkedQueue.withoutLink_relinks circular
          rw [List.append_nil] at relinks
          have fresh : e + diff ∉ head :: init.map (· + diff) := by
            have whole := circular
            rw [List.map_append, List.map_cons, List.map_nil] at whole
            have outside := whole.fresh
            rw [List.append_nil] at outside
            exact outside
          have solid₁ : 0 ∉ head :: init.map (· + diff) := by
            intro member
            apply solid
            rw [List.map_append, ← List.cons_append]
            exact List.mem_append_left _ member
          have nonzero : head ≠ 0 := fun zero => solid (List.mem_cons.mpr (.inl zero.symm))
          have short : init.length < turns := by
            rw [List.length_append, List.length_singleton] at enough
            omega
          obtain ⟨m', rounds, emptied⟩ := ih relinks.circular solid₁
            (fun member => elements (List.mem_append_left _ member)) short
            (by rw [null_entry]; exact nonzero.symm) rest
          refine ⟨m', ?_, emptied.ring, ?_, ?_⟩
          · rw [outRounds, if_neg inside, LinkedQueue.queueOut_eq circular]
            dsimp only
            rw [if_neg object]
            refine bind_eq_ok.mpr ⟨s₁, first, bind_eq_ok.mpr ⟨0, ?_, rounds⟩⟩
            rw [follow, if_neg linked]
            exact congrArg _ (Function.update_self ..)
          · intro x member
            rcases List.mem_append.mp member with early | last
            · exact emptied.cleared x early
            · rw [List.mem_singleton.mp last]
              obtain ⟨prev, next⟩ := emptied.frame _ fresh
              exact ⟨prev.trans (Function.update_self ..), next.trans (Function.update_self ..)⟩
          · intro a outside
            have apart : a ∉ head :: init.map (· + diff) := by
              intro member
              apply outside
              rw [List.map_append, ← List.cons_append]
              exact List.mem_append_left _ member
            obtain ⟨prev, next⟩ := emptied.frame a apart
            obtain ⟨prev', next'⟩ := relinks.frame a outside
            exact ⟨prev.trans prev', next.trans next'⟩

theorem forEachOut_eq (circular : Circular m.prev m.next head (l.map (· + diff)))
    (solid : 0 ∉ head :: l.map (· + diff)) (elements : 0 ∉ l)
    (run : l.reverse.foldlM (fun s e => body e s) s = .ok s') :
    ∃ m', m.forEachOut head diff body s = .ok (m', s') ∧ Emptied head diff m m' l := by
  have nonzero : head ≠ 0 := fun zero => solid (List.mem_cons.mpr (.inl zero.symm))
  have read : m.follow head = .ok (m.next head) := if_neg nonzero
  have entry : queueEntry diff (m.next head) + diff = m.next head := by
    rw [queueEntry, BitVec.sub_add_cancel]
  cases l with
  | nil =>
      cases run
      have here : m.next head = head := circular.forward
      refine ⟨m, bind_eq_ok.mpr ⟨_, read, ?_⟩, circular, ?_, fun _ _ => ⟨rfl, rfl⟩⟩
      · exact if_pos (entry.trans here)
      · intro e member
        cases member
  | cons x rest =>
      have here : m.next head = x + diff := circular.forward.1
      have inside : queueEntry diff (m.next head) + diff ≠ head := by
        rw [entry, here]
        intro same
        exact (List.nodup_cons.mp circular.nodup).1 (same ▸ List.mem_cons_self)
      obtain ⟨m', rounds, emptied⟩ := outRounds_eq circular solid elements
        (LinkedQueue.length_lt circular) inside run
      exact ⟨m', bind_eq_ok.mpr ⟨_, read, rounds⟩, emptied⟩

end Rounds

end LinkFields

def Proc.released (heir : Option Addr) (left : List Addr) (parent child : Bool) (p : Proc) :
    Proc :=
  { p with
    childrenList := if parent then left else p.childrenList
    siblings := if child then none else p.siblings
    status := if child && decide (p.status = .zombie) then .dying else p.status
    links := if child && decide (p.status = .zombie) then some .dying else p.links
    parent := if child && decide (p.status ≠ .zombie) then heir else p.parent }

namespace Kernel

variable {k k' k'' : Kernel} {a b c : Addr} {p owner : Proc} {l left kept : List Addr}

structure Released (k : Kernel) (a : Addr) (l left : List Addr) (k' : Kernel) : Prop where
  procs : ∀ b, k'.procs b = (k.procs b).map
    (Proc.released (k.processesTable 0) left (decide (b = a)) (decide (b ∈ l)))
  zombie : k'.lists .zombie = (k.lists .zombie).filter fun b : Addr => decide (b ∉ l)
  dying : ∀ b, b ∈ k'.lists .dying ↔ b ∈ k.lists .dying ∨ b ∈ l ∧ b ∈ k.lists .zombie
  others : ∀ h, h ≠ .zombie → h ≠ .dying → k'.lists h = k.lists h
  rest : k' = { k with procs := k'.procs, lists := k'.lists }

theorem Released.none (here : k.procs a = some owner) (children : owner.childrenList = left) :
    Released k a [] left k := by
  constructor
  · intro b
    by_cases same : b = a
    · subst same
      rw [here, Option.map_some]
      simp [Proc.released, ← children]
    · cases k.procs b with
      | none => rfl
      | some p => simp [Proc.released, same]
  · simp
  · simp
  · intro h _ _
    rfl
  · rfl

theorem Released.trans (first : Released k a [c] kept k') (second : Released k' a l left k'')
    (fresh : c ∉ l) : Released k a (l ++ [c]) left k'' := by
  have table : k'.processesTable = k.processesTable := by rw [first.rest]
  constructor
  · intro b
    rw [second.procs b, first.procs b, table, Option.map_map]
    congr 1
    funext p
    have last : (if b = a then left else if b = a then kept else p.childrenList) =
        if b = a then left else p.childrenList := by
      split
      · rfl
      · rfl
    by_cases same : b = c
    · subst same
      by_cases ended : p.status = .zombie
      · simp [Proc.released, fresh, ended, last]
      · simp [Proc.released, fresh, ended, last]
    · by_cases member : b ∈ l
      · simp [Proc.released, same, member, last]
      · simp [Proc.released, same, member, last]
  · rw [second.zombie, first.zombie, List.filter_filter]
    apply List.filter_congr
    intro b _
    simp
  · intro b
    rw [second.dying b, first.dying b, first.zombie]
    simp only [List.mem_filter, List.mem_singleton, List.mem_append, decide_eq_true_eq]
    constructor
    · rintro ((dying | ⟨same, zombie⟩) | ⟨member, zombie, -⟩)
      · exact .inl dying
      · exact .inr ⟨.inr same, zombie⟩
      · exact .inr ⟨.inl member, zombie⟩
    · rintro (dying | ⟨member | same, zombie⟩)
      · exact .inl (.inl dying)
      · exact .inr ⟨member, zombie, fun same => fresh (same ▸ member)⟩
      · exact .inl (.inr ⟨same, zombie⟩)
  · intro h zombie dying
    rw [second.others h zombie dying, first.others h zombie dying]
  · rw [second.rest, first.rest]

theorem requeue_ok {s : Status} {g h : Head} (linked : k.Linked) (here : k.procs a = some p)
    (links : p.links = some g) (sorted : h.field = Proc.priority) :
    k.requeue a s h = .ok (k.relink a s h) := by
  have found : (k.setStatus a s).procs a = some { p with status := s } := by
    simp [setStatus, setProc_procs, here]
  have del := queueDel_ok linked.setStatus found links
  have apart := unlink_procs.trans ((if_pos rfl).trans (congrArg _ found))
  have add := link_ok (h := h) linked.setStatus.unlink apart rfl
  rw [sorted] at add
  have run : k.requeue a s h = .ok _ := bind_eq_ok.mpr ⟨_, del, add⟩
  rw [run, relink_eq]

theorem outSibling_ok {init : List Addr} (there : k.procs a = some owner)
    (children : owner.childrenList = init ++ [c])
    (live : ∀ d ∈ init ++ [c], k.procs d ≠ none) :
    k.outSibling a = .ok (some c, k.popSibling c a) := by
  obtain ⟨p, here⟩ := Option.ne_none_iff_exists'.mp
    (live c (List.mem_append_right _ List.mem_cons_self))
  have last : owner.childrenList.getLast? = some c := by simp [children]
  have touched : k.touch owner.childrenList.dropLast.getLast? = .ok () := by
    apply touch_ok
    intro d found
    rw [children, List.dropLast_concat] at found
    exact live d (List.mem_append_left _ (List.mem_of_getLast? found))
  rw [outSibling, deref_eq_ok.mpr there]
  simp only [bind, Except.bind, last, deref_eq_ok.mpr here, touched]
  rfl

theorem popSibling_left {init : List Addr} (there : k.procs a = some owner)
    (children : owner.childrenList = init ++ [c]) (b : Addr) :
    (k.popSibling c a).procs b = (k.procs b).map fun p =>
      { p with
        childrenList := if b = a then init else p.childrenList
        siblings := if b = c then none else p.siblings } := by
  rw [popSibling_procs]
  by_cases own : b = a
  · subst own
    rw [there, Option.map_some, Option.map_some, if_pos rfl, if_pos rfl, children,
      List.dropLast_concat]
  · simp only [if_neg own]

theorem Released.last {init : List Addr} (there : k.procs a = some owner)
    (children : owner.childrenList = init ++ [c]) (here : k.procs c = some p)
    (own : k'.procs c = some (Proc.released (k.processesTable 0) init (decide (c = a)) true p))
    (others : ∀ b, b ≠ c → k'.procs b = (k.popSibling c a).procs b)
    (zombie : k'.lists .zombie = (k.lists .zombie).filter fun b : Addr => decide (b ≠ c))
    (dying : ∀ b, b ∈ k'.lists .dying ↔ b ∈ k.lists .dying ∨ b = c ∧ b ∈ k.lists .zombie)
    (lists : ∀ h, h ≠ .zombie → h ≠ .dying → k'.lists h = k.lists h)
    (rest : k' = { k with procs := k'.procs, lists := k'.lists }) : Released k a [c] init k' := by
  constructor
  · intro b
    by_cases same : b = c
    · subst same
      rw [own, here, Option.map_some]
      simp
    · rw [others b same, popSibling_left there children]
      congr 1
      funext q
      simp [Proc.released, same]
  · rw [zombie]
    simp
  · intro b
    rw [dying, List.mem_singleton]
  · exact lists
  · exact rest

theorem freeChild_released {init : List Addr} (consistent : k.Consistent)
    (there : k.procs a = some owner) (children : owner.childrenList = init ++ [c])
    (here : k.procs c = some p) :
    ∃ k', (k.popSibling c a).freeChild c = .ok k' ∧ k'.Consistent ∧
      Released k a [c] init k' := by
  have popped : (k.popSibling c a).procs c = some { p with
      childrenList := if c = a then init else p.childrenList
      siblings := none } := by
    rw [popSibling_left there children, here, Option.map_some, if_pos rfl]
  have consistent₁ : (k.popSibling c a).Consistent :=
    consistent.moves (m := ⟨a, none, .family⟩) (Moves.popSibling .refl rfl)
  have zombies : p.status = .zombie ↔ c ∈ k.lists .zombie :=
    consistent.status_iff (h := .zombie) here (by decide) fun g same => by
      cases g with
      | zombie => rfl
      | ready | asleep | dying | blocked | queue => cases same
  by_cases ended : p.status = .zombie
  · have links : p.links = some .zombie :=
      (consistent.linked.links_iff here).mpr (zombies.mp ended)
    have apart (h : Head) (other : h ≠ .zombie) : c ∉ k.lists h := by
      intro member
      have again := (consistent.linked.links_iff here).mpr member
      rw [links, Option.some.injEq] at again
      exact other again.symm
    refine ⟨(k.popSibling c a).relink c .dying .dying, ?_, ?_, ?_⟩
    · refine bind_eq_ok.mpr ⟨_, deref_eq_ok.mpr popped, ?_⟩
      rw [if_pos ended]
      exact requeue_ok consistent₁.linked popped links rfl
    · exact consistent₁.relink (h := .dying) (fun q same => by cases same) popped
    apply Released.last there children here
    · rw [relink_procs, if_pos rfl, popped, Option.map_some, Option.some.injEq]
      simp [Proc.released, ended]
    · intro b other
      rw [relink_procs, if_neg other]
    · change (k.lists .zombie).erase c = _
      rw [(consistent.linked.nodup .zombie).erase_eq_filter]
      apply List.filter_congr
      intro b _
      by_cases same : b = c
      · simp [same]
      · simp [same]
    · intro b
      rw [relink_lists, if_pos rfl, mem_place]
      change b = c ∨ b ∈ (k.lists .dying).erase c ↔ _
      rw [List.erase_of_not_mem (apart .dying (by decide))]
      constructor
      · rintro (rfl | member)
        · exact .inr ⟨rfl, zombies.mp ended⟩
        · exact .inl member
      · rintro (member | ⟨same, -⟩)
        · exact .inr member
        · exact .inl same
    · intro h zombie dying
      rw [relink_lists, if_neg dying]
      exact List.erase_of_not_mem (apart h zombie)
    · rfl
  · refine ⟨(k.popSibling c a).setProc c fun p => { p with parent := k.processesTable 0 },
      ?_, ?_, ?_⟩
    · refine bind_eq_ok.mpr ⟨_, deref_eq_ok.mpr popped, ?_⟩
      rw [if_neg ended]
      rfl
    · exact consistent₁.edit fun _ => ⟨rfl, rfl, rfl⟩
    have absent : c ∉ k.lists .zombie := fun member => ended (zombies.mpr member)
    apply Released.last there children here
    · rw [setProc_procs, if_pos rfl, popped, Option.map_some, Option.some.injEq]
      simp [Proc.released, ended]
    · intro b other
      rw [setProc_procs, if_neg other]
    · change k.lists .zombie = _
      rw [List.filter_eq_self.mpr]
      intro b member
      have other : b ≠ c := fun same => absent (same ▸ member)
      simp [other]
    · intro b
      change b ∈ k.lists .dying ↔ _
      constructor
      · exact .inl
      · rintro (member | ⟨rfl, member⟩)
        · exact member
        · exact absurd member absent
    · intro h _ _
      rfl
    · rfl

def releaseChild (block : Pointer → Addr) (parent : Addr) (elem : Pointer) (k : Kernel) :
    Except Fault Kernel := do
  let (_, k) ← k.outSibling parent
  k.freeChild (block elem)

/-- `free_children` with the links of its list written out: `block` is the block that an
element is the first byte of. -/
def freeChildrenLinked {P : Type} (k : Kernel) (m : LinkFields P) (head diff : Pointer)
    (block : Pointer → Addr) (a : Addr) : Except Fault (LinkFields P × Kernel) :=
  m.forEachOut head diff (releaseChild block a) k

theorem releaseAll {block : Pointer → Addr} {l : List Pointer} (consistent : k.Consistent)
    (there : k.procs a = some owner) (children : owner.childrenList = l.map block)
    (nodup : (l.map block).Nodup) (live : ∀ c ∈ l.map block, k.procs c ≠ none) :
    ∃ k', l.reverse.foldlM (fun k e => releaseChild block a e k) k = .ok k' ∧
      freeChildrenLoop a (l.length + 1) k = .ok k' ∧ Released k a (l.map block) [] k' := by
  induction l using List.reverseRecOn generalizing k owner with
  | nil =>
      refine ⟨k, rfl, ?_, .none there children⟩
      have out : k.outSibling a = .ok (none, k) := by
        rw [outSibling, deref_eq_ok.mpr there]
        simp only [bind, Except.bind, children, List.map_nil, List.getLast?_nil]
      exact bind_eq_ok.mpr ⟨_, out, rfl⟩
  | append_singleton init e ih =>
      rw [List.map_append, List.map_singleton] at children nodup live ⊢
      obtain ⟨p, here⟩ := Option.ne_none_iff_exists'.mp
        (live (block e) (List.mem_append_right _ List.mem_cons_self))
      have out := outSibling_ok there children live
      obtain ⟨k₁, freed, consistent₁, first⟩ := freeChild_released consistent there children here
      obtain ⟨front, -, apart⟩ := List.nodup_append.mp nodup
      have fresh : block e ∉ init.map block :=
        fun member => apart _ member _ List.mem_cons_self rfl
      have there₁ : k₁.procs a = some (Proc.released (k.processesTable 0) (init.map block)
          (decide (a = a)) (decide (a ∈ [block e])) owner) := by
        rw [first.procs, there, Option.map_some]
      have children₁ : (Proc.released (k.processesTable 0) (init.map block)
          (decide (a = a)) (decide (a ∈ [block e])) owner).childrenList = init.map block := by
        simp [Proc.released]
      have live₁ : ∀ c ∈ init.map block, k₁.procs c ≠ none := by
        intro c member gone
        rw [first.procs] at gone
        exact live c (List.mem_append_left _ member) (Option.map_eq_none_iff.mp gone)
      obtain ⟨k', folded, looped, rest⟩ := ih consistent₁ there₁ children₁ front live₁
      refine ⟨k', ?_, ?_, first.trans rest fresh⟩
      · rw [List.reverse_concat, List.foldlM_cons]
        exact bind_eq_ok.mpr ⟨k₁, bind_eq_ok.mpr ⟨_, out, freed⟩, folded⟩
      · rw [List.length_append, List.length_singleton]
        exact bind_eq_ok.mpr ⟨_, out, bind_eq_ok.mpr ⟨k₁, freed, looped⟩⟩

def Tended (k : Kernel) : Prop :=
  ∀ b owner, k.procs b = some owner → owner.childrenList.Nodup ∧
    (owner.pid ≠ 0 → ∀ c ∈ owner.childrenList, k.procs c ≠ none)

theorem Kindred.tended (kindred : k.Kindred) : k.Tended := by
  intro b owner there
  have family := family_apply there
  refine ⟨kindred.sound.nodup b _ family, fun other c member gone => ?_⟩
  obtain ⟨mc, found, -⟩ := kindred.sound.lasting b _ c family other member
  obtain ⟨p, here, -⟩ := of_family found
  rw [gone] at here
  cases here

theorem Tended.edit {f : Addr → Proc → Proc} (tended : k.Tended)
    (procs : ∀ b, k'.procs b = (k.procs b).map (f b))
    (same : ∀ b p, (f b p).pid = p.pid ∧ (f b p).childrenList = p.childrenList) : k'.Tended := by
  intro b owner there
  rw [procs] at there
  obtain ⟨owner₀, before, rfl⟩ := Option.map_eq_some_iff.mp there
  obtain ⟨pid, children⟩ := same b owner₀
  obtain ⟨nodup, live⟩ := tended b owner₀ before
  rw [pid, children]
  refine ⟨nodup, fun other c member gone => ?_⟩
  rw [procs] at gone
  exact live other c member (Option.map_eq_none_iff.mp gone)

theorem Tended.setProc {f : Proc → Proc} (tended : k.Tended)
    (same : ∀ p, (f p).pid = p.pid ∧ (f p).childrenList = p.childrenList) :
    (k.setProc a f).Tended := by
  apply tended.edit (f := fun b p => if b = a then f p else p)
  · intro b
    rw [setProc_procs]
    split
    · next equal => rw [equal]
    · simp
  · intro b p
    split
    · exact same p
    · exact ⟨rfl, rfl⟩

inductive Frees (history : History) : Addr → Kernel → Prop where
  | reached {a : Addr} {k : Kernel} (run : Reached history k) : Frees history a k
  | exit {a : Addr} {k : Kernel} {retval : Int} (run : Reached history k)
      (current : k.processesTable k.activePID = some a) :
      Frees history a (k.setProc a fun p => { p with retval := retval, killed := false })
  | killSelf {a : Addr} {k : Kernel} (run : Reached history k)
      (current : k.processesTable k.activePID = some a) :
      Frees history a ((k.setProc a fun p => { p with killed := true }).setProc a
        fun p => { p with retval := 0, killed := false })
  | kill {a : Addr} {k k' : Kernel} {p : Proc} {h : Head} (run : Reached history k)
      (here : k.procs a = some p) (ended : h = .zombie ∨ h = .dying)
      (moved : (k.setProc a fun p => { p with killed := true }).requeue a h.status h = .ok k') :
      Frees history a k'

theorem Frees.invariant {history : History} (frees : Frees history a k) :
    k.Consistent ∧ k.Tended := by
  cases frees with
  | reached run => exact ⟨(consistent_of_run run).1, (kindred_of_run run).tended⟩
  | exit run current =>
      exact ⟨(consistent_of_run run).1.edit fun _ => ⟨rfl, rfl, rfl⟩,
        (kindred_of_run run).tended.setProc fun _ => ⟨rfl, rfl⟩⟩
  | killSelf run current =>
      have marked := (consistent_of_run run).1.edit (a := a)
        (f := fun p => { p with killed := true }) fun _ => ⟨rfl, rfl, rfl⟩
      have tended := (kindred_of_run run).tended.setProc (a := a)
        (f := fun p => { p with killed := true }) fun _ => ⟨rfl, rfl⟩
      exact ⟨marked.edit fun _ => ⟨rfl, rfl, rfl⟩, tended.setProc fun _ => ⟨rfl, rfl⟩⟩
  | @kill k₀ _ p h run here ended moved =>
      have marked := (consistent_of_run run).1.edit (a := a)
        (f := fun p => { p with killed := true }) fun _ => ⟨rfl, rfl, rfl⟩
      have tended := (kindred_of_run run).tended.setProc (a := a)
        (f := fun p => { p with killed := true }) fun _ => ⟨rfl, rfl⟩
      have found : (k₀.setProc a fun p => { p with killed := true }).procs a =
          some { p with killed := true } := setProc_here here
      have sorted : h.field = Proc.priority := by
        rcases ended with rfl | rfl
        · rfl
        · rfl
      obtain ⟨-, rfl⟩ := requeue_relink marked.linked sorted moved
      constructor
      · have held : h.Held (k₀.setProc a fun p => { p with killed := true }) := by
          intro q same
          rcases ended with rfl | rfl <;> cases same
        exact marked.relink held found
      · apply tended.edit (f := fun b p =>
          if b = a then { p with status := h.status, links := some h } else p)
        · intro b
          rw [relink_procs]
          split
          · next equal => rw [equal]
          · simp
        · intro b p
          split
          · exact ⟨rfl, rfl⟩
          · exact ⟨rfl, rfl⟩

/-- The links of the children list of `a`, from the head on, as far as `queue.h` may rely on
them: two circular chains of pointers that are not null. -/
structure ChildLinks {P : Type} (m : LinkFields P) (head diff : Pointer)
    (block : Pointer → Addr) (children : List Addr) (l : List Pointer) : Prop where
  ring : Circular m.prev m.next head (l.map (· + diff))
  solid : 0 ∉ head :: l.map (· + diff)
  elements : 0 ∉ l
  blocks : l.map block = children

end Kernel

open Kernel

variable {history : History} {k : Kernel} {a : Addr} {owner : Proc} {P : Type}
  {m : LinkFields P} {head diff : Pointer} {block : Pointer → Addr} {l : List Pointer}

/-- `free_children` ends, whatever the number and the states of the children, reads no null
pointer, and handles every child once, as the list model of it does. -/
theorem free_children_handles_each_once (frees : Frees history a k)
    (here : k.procs a = some owner)
    (children : owner.pid ≠ 0 ∨ ∀ c ∈ owner.childrenList, k.procs c ≠ none)
    (links : ChildLinks m head diff block owner.childrenList l) :
    ∃ m' k', k.freeChildrenLinked m head diff block a = .ok (m', k') ∧
      k.freeChildren a = .ok k' ∧ LinkFields.Emptied head diff m m' l ∧
      Released k a owner.childrenList [] k' := by
  obtain ⟨consistent, tended⟩ := frees.invariant
  obtain ⟨nodup, lasting⟩ := tended a owner here
  have live : ∀ c ∈ owner.childrenList, k.procs c ≠ none := by
    rcases children with other | live
    · exact lasting other
    · exact live
  have blocks := links.blocks
  rw [← blocks] at nodup live ⊢
  obtain ⟨k', folded, looped, released⟩ :=
    releaseAll consistent here blocks.symm nodup live
  obtain ⟨m', linked, emptied⟩ :=
    LinkFields.forEachOut_eq links.ring links.solid links.elements folded
  refine ⟨m', k', linked, bind_eq_ok.mpr ⟨owner, deref_eq_ok.mpr here, ?_⟩, emptied, released⟩
  split
  · next empty =>
    rw [← blocks, List.map_eq_nil_iff] at empty
    subst empty
    cases folded
    rfl
  · have length : owner.childrenList.length = l.length := by rw [← blocks, List.length_map]
    rw [length]
    exact looped

def twoLinks : LinkFields Nat where
  prev := fun a => if a = 0x40 then 0x208 else if a = 0x208 then 0x108 else
    if a = 0x108 then 0x40 else 0
  next := fun a => if a = 0x40 then 0x108 else if a = 0x108 then 0x208 else
    if a = 0x208 then 0x40 else 0
  priority := fun _ => 0

/-- Of the two children of process 1 the second one has ended. -/
theorem free_children_handles_each_once_two : ∃ history k owner m' k', Reached history k ∧
    k.procs 3 = some owner ∧ owner.childrenList = [5, 7] ∧
    (k.procs 7).map Proc.status = some .zombie ∧ k.freeChildren 3 = .ok k' ∧
    LinkFields.Emptied 0x40 8 twoLinks m' [0x100, 0x200] ∧ Released k 3 owner.childrenList [] k' := by
  obtain ⟨history, k, run, checked⟩ := reached_by
    [.call (.start 512 10 [97] true true), .call (.start 512 5 [98] true true),
      .call (.start 512 20 [99] true true), .call (.exit 7)]
    (fun _ k => (k.procs 3).any (fun p : Proc =>
        decide (p.childrenList = [5, 7]) && decide (p.pid = 1)) &&
      decide ((k.procs 7).map Proc.status = some .zombie))
    (by decide +kernel)
  simp only [Bool.and_eq_true, decide_eq_true_eq] at checked
  obtain ⟨found, zombie⟩ := checked
  obtain ⟨owner, here, checked⟩ := (Option.any_eq_true _ _).mp found
  simp only [Bool.and_eq_true, decide_eq_true_eq] at checked
  obtain ⟨children, pid⟩ := checked
  have links : ChildLinks twoLinks 0x40 8 (fun e => if e = 0x100 then 5 else 7)
      owner.childrenList [0x100, 0x200] := by
    rw [children]
    exact ⟨⟨⟨by decide, by decide, rfl⟩, ⟨by decide, by decide, rfl⟩, by decide⟩,
      by decide, by decide, by decide⟩
  have other : owner.pid ≠ 0 := by
    rw [pid]
    decide
  obtain ⟨m', k', -, freed, emptied, released⟩ :=
    free_children_handles_each_once (.reached run) here (.inl other) links
  exact ⟨history, k, owner, m', k', run, here, children, zombie, freed, emptied, released⟩

end IntelX86Kernel
