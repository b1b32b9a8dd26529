import IntelX86Kernel.ByteMemory

/-! Page tables of two levels with pages of 4096 bytes: how the processor walks them, and what
that says where the tables of a directory stand one after the other. Nothing here depends on a
program. -/

namespace X86

def PageAligned (a : Word) : Prop := 4096 ∣ a.toNat

instance (a : Word) : Decidable (PageAligned a) := inferInstanceAs (Decidable (_ ∣ _))

/-- Where an address is in memory, and whether it can be written there. -/
structure Translation where
  physical : Word
  writable : Bool
  deriving DecidableEq

/-- The walk through the directory and one of its tables, on the present and the writable bits
of their entries. -/
def Memory.translate (m : Memory) (directory a : Word) : Option Translation :=
  let upper := m.read (directory + (4 : Word) * (a >>> 22))
  if upper.getLsbD 0 then
    let lower := m.read ((upper &&& 0xFFFFF000#32) + (4 : Word) * ((a >>> 12) &&& 0x3FF#32))
    if lower.getLsbD 0 then
      some ⟨(lower &&& 0xFFFFF000#32) ||| (a &&& 0xFFF#32), upper.getLsbD 1 && lower.getLsbD 1⟩
    else none
  else none

variable {a b flags : Word} {m : Memory}

theorem page_mask_eq (a : Word) : a &&& 0xFFFFF000#32 = (a >>> 12) <<< 12 := by
  have mask : 0xFFFFF000#32 = (BitVec.allOnes 32 >>> 12) <<< 12 := rfl
  rw [mask]
  apply BitVec.eq_of_getLsbD_eq
  intro i below
  simp only [BitVec.getLsbD_and, BitVec.getLsbD_shiftLeft, BitVec.getLsbD_ushiftRight,
    BitVec.getLsbD_allOnes, below]
  grind

theorem page_mask_toNat (a : Word) : (a &&& 0xFFFFF000#32).toNat = a.toNat / 4096 * 4096 := by
  have bound := a.isLt
  rw [page_mask_eq, BitVec.toNat_shiftLeft, BitVec.toNat_ushiftRight, Nat.shiftLeft_eq,
    Nat.shiftRight_eq_div_pow]
  omega

theorem page_mask_ofNat (a : Word) :
    a &&& 0xFFFFF000#32 = BitVec.ofNat 32 (4096 * (a.toNat / 4096)) := by
  have bound := a.isLt
  apply BitVec.eq_of_toNat_eq
  rw [page_mask_toNat, BitVec.toNat_ofNat]
  omega

theorem pageAligned_iff : a &&& 0xFFFFF000#32 = a ↔ PageAligned a := by
  rw [PageAligned, ← BitVec.toNat_inj, page_mask_toNat]
  omega

theorem frame_of_entry (aligned : PageAligned a) (small : flags.toNat < 4096) :
    (a ||| flags) &&& 0xFFFFF000#32 = a := by
  have dropped : flags &&& 0xFFFFF000#32 = 0#32 := by
    apply BitVec.eq_of_toNat_eq
    rw [page_mask_toNat, Nat.div_eq_of_lt small]
    rfl
  rw [BitVec.and_comm, BitVec.and_or_distrib_left, BitVec.and_comm, pageAligned_iff.mpr aligned,
    BitVec.and_comm, dropped, BitVec.or_zero]

theorem page_or_offset (a : Word) : (a &&& 0xFFFFF000#32) ||| (a &&& 0xFFF#32) = a := by
  have all : 0xFFFFF000#32 ||| 0xFFF#32 = BitVec.allOnes 32 := rfl
  rw [← BitVec.and_or_distrib_left, all, BitVec.and_allOnes]

theorem flag_of_entry {i : Nat} (aligned : PageAligned a) (low : i < 12) :
    (a ||| flags).getLsbD i = flags.getLsbD i := by
  have clear : a.getLsbD i = false := by
    rw [← pageAligned_iff.mpr aligned, page_mask_eq, BitVec.getLsbD_shiftLeft]
    simp [low]
  rw [BitVec.getLsbD_or, clear, Bool.false_or]

def InPages (start stop a : Word) : Prop := ∃ b, start ≤ b ∧ b < stop ∧ b >>> 12 = a >>> 12

theorem InPages.split {start stop : Word} (inside : InPages start stop a) (middle : Word) :
    InPages start middle a ∨ InPages middle stop a := by
  obtain ⟨b, above, below, same⟩ := inside
  by_cases before : b < middle
  · exact .inl ⟨b, above, before, same⟩
  · exact .inr ⟨b, BitVec.not_lt.mp before, below, same⟩

theorem InPages.bounds {start stop : Word} (inside : InPages start stop a) :
    ∃ b : Word, start.toNat ≤ b.toNat ∧ b.toNat < stop.toNat ∧
      b.toNat / 4096 = a.toNat / 4096 := by
  obtain ⟨b, above, below, same⟩ := inside
  have same' := congrArg BitVec.toNat same
  rw [BitVec.toNat_ushiftRight, BitVec.toNat_ushiftRight, Nat.shiftRight_eq_div_pow,
    Nat.shiftRight_eq_div_pow] at same'
  exact ⟨b, above, below, same'⟩

theorem directory_index (a : Word) : a >>> 22 = BitVec.ofNat 32 (a.toNat / 4096 / 1024) := by
  have bound := a.isLt
  apply BitVec.eq_of_toNat_eq
  rw [BitVec.toNat_ushiftRight, Nat.shiftRight_eq_div_pow, BitVec.toNat_ofNat]
  omega

theorem table_index (a : Word) :
    (a >>> 12) &&& 0x3FF#32 = BitVec.ofNat 32 (a.toNat / 4096 % 1024) := by
  have mask : (0x3FF#32).toNat = 2 ^ 10 - 1 := rfl
  apply BitVec.eq_of_toNat_eq
  rw [BitVec.toNat_and, mask, Nat.and_two_pow_sub_one_eq_mod, BitVec.toNat_ushiftRight,
    Nat.shiftRight_eq_div_pow, BitVec.toNat_ofNat]
  omega

namespace Block

theorem word_eq (c : Block) (i : Nat) : c.base + (4 : Word) * BitVec.ofNat 32 i = c.word i := by
  rw [word, BitVec.ofNat_mul]
  rfl

end Block

/-- A directory and the tables that its first `count` entries lead to. -/
structure Tables where
  dir : Block
  tab : Block
  count : Nat
  few : count ≤ 1024
  whole : dir.bytes = 4096
  sized : tab.bytes = 4096 * count
  aligned : PageAligned tab.base
  apart : dir.Apart tab

namespace Tables

variable {t : Tables} {i page : Nat} {v : Word}

def table (t : Tables) (i : Nat) : Word := t.tab.base + BitVec.ofNat 32 i * 0x1000

structure Directory (t : Tables) (m : Memory) : Prop where
  first : ∀ i < t.count, m.read (t.dir.word i) = t.table i ||| 3
  rest : ∀ i < 1024, t.count ≤ i → m.read (t.dir.word i) = 0

theorem room (inside : i < 1024) : 4 * i + 4 ≤ t.dir.bytes := by
  rw [t.whole]
  omega

theorem table_toNat (inside : i < t.count) : (t.table i).toNat = t.tab.base.toNat + 4096 * i := by
  have fits := t.tab.fits
  have sized := t.sized
  rw [table, BitVec.toNat_add, BitVec.toNat_mul, BitVec.toNat_ofNat]
  have size : (4096 : Word).toNat = 4096 := rfl
  rw [size]
  omega

theorem table_aligned (inside : i < t.count) : PageAligned (t.table i) := by
  have aligned : 4096 ∣ t.tab.base.toNat := t.aligned
  rw [PageAligned, table_toNat inside]
  exact Nat.dvd_add aligned (Nat.dvd_mul_right 4096 i)

theorem entry_of_page :
    t.table (page / 1024) + (4 : Word) * BitVec.ofNat 32 (page % 1024) = t.tab.word page := by
  have split : 4 * page = page / 1024 * 4096 + 4 * (page % 1024) := by omega
  rw [Block.word, split, BitVec.ofNat_add, BitVec.ofNat_mul, BitVec.ofNat_mul, table,
    BitVec.add_assoc]
  rfl

theorem Directory.slot (d : t.Directory m) (below : a.toNat / 4096 < 1024 * t.count) :
    (m.read (t.dir.base + (4 : Word) * (a >>> 22)) &&& 0xFFFFF000#32) + (4 : Word) * ((a >>> 12) &&& 0x3FF#32) =
      t.tab.word (a.toNat / 4096) := by
  have inside : a.toNat / 4096 / 1024 < t.count := by omega
  have flags : (3 : Word).toNat < 4096 := by decide
  rw [directory_index, table_index, Block.word_eq, d.first _ inside,
    frame_of_entry (table_aligned inside) flags, entry_of_page]

theorem Directory.write (d : t.Directory m) (inside : page < 1024 * t.count) :
    t.Directory (m.write (t.tab.word page) v) := by
  have sized := t.sized
  have other : t.tab.Holds (t.tab.word page) 4 := Block.holds_word (by omega)
  have same (i : Nat) (small : i < 1024) :
      (m.write (t.tab.word page) v).read (t.dir.word i) = m.read (t.dir.word i) :=
    Memory.read_write_apart (t.apart.symm.words other (Block.holds_word (room small)))
  have few := t.few
  constructor
  · intro i small
    rw [same i (by omega), d.first i small]
  · intro i small beyond
    rw [same i small, d.rest i small beyond]

theorem Directory.translate (d : t.Directory m) (below : a.toNat / 4096 < 1024 * t.count) :
    m.translate t.dir.base a =
      if (m.read (t.tab.word (a.toNat / 4096))).getLsbD 0 then
        some ⟨(m.read (t.tab.word (a.toNat / 4096)) &&& 0xFFFFF000#32) ||| (a &&& 0xFFF#32),
          (m.read (t.tab.word (a.toNat / 4096))).getLsbD 1⟩
      else none := by
  have inside : a.toNat / 4096 / 1024 < t.count := by omega
  have upper : m.read (t.dir.base + (4 : Word) * (a >>> 22)) = t.table (a.toNat / 4096 / 1024) ||| 3 := by
    rw [directory_index, Block.word_eq, d.first _ inside]
  have flag (i : Nat) (low : i < 12) : (t.table (a.toNat / 4096 / 1024) ||| 3).getLsbD i =
      (3 : Word).getLsbD i := flag_of_entry (table_aligned inside) low
  have present : (3 : Word).getLsbD 0 = true := rfl
  have writable : (3 : Word).getLsbD 1 = true := rfl
  have slot := d.slot below
  rw [upper] at slot
  rw [Memory.translate, upper, flag 0 (by decide), flag 1 (by decide), present, writable,
    if_pos rfl, slot]
  simp only [Bool.true_and]

structure Shows (t : Tables) (m : Memory) (entries : Nat → Word) : Prop where
  directory : t.Directory m
  entry : ∀ page < 1024 * t.count, m.read (t.tab.word page) = entries page

theorem Shows.write {entries : Nat → Word} (shows : t.Shows m entries)
    (inside : page < 1024 * t.count) :
    t.Shows (m.write (t.tab.word page) v) (Function.update entries page v) := by
  have sized := t.sized
  refine ⟨shows.directory.write inside, fun other below => ?_⟩
  by_cases same : other = page
  · rw [same, Memory.read_write, Function.update_self]
  · have apart : Memory.Apart (t.tab.word page) (t.tab.word other) :=
      Block.words_apart (by omega) (by omega) (Ne.symm same)
    rw [Memory.read_write_apart apart, Function.update_of_ne same, shows.entry other below]

theorem Shows.translate_present {entries : Nat → Word} (shows : t.Shows m entries)
    (below : a.toNat / 4096 < 1024 * t.count) (small : flags.toNat < 4096)
    (present : flags.getLsbD 0 = true)
    (entry : entries (a.toNat / 4096) = BitVec.ofNat 32 (4096 * (a.toNat / 4096)) ||| flags) :
    m.translate t.dir.base a = some ⟨a, flags.getLsbD 1⟩ := by
  have aligned : PageAligned (a &&& 0xFFFFF000#32) := by
    rw [PageAligned, page_mask_toNat]
    exact Nat.dvd_mul_left 4096 _
  rw [shows.directory.translate below, shows.entry _ below, entry, ← page_mask_ofNat,
    flag_of_entry aligned (by decide), flag_of_entry aligned (by decide),
    frame_of_entry aligned small, if_pos present, page_or_offset]

theorem Shows.translate_empty {entries : Nat → Word} (shows : t.Shows m entries)
    (below : a.toNat / 4096 < 1024 * t.count) (empty : entries (a.toNat / 4096) = 0) :
    m.translate t.dir.base a = none := by
  have absent : ¬ (0 : Word).getLsbD 0 = true := by decide
  rw [shows.directory.translate below, shows.entry _ below, empty, if_neg absent]

end Tables

section Overlay

variable {ρ α β : Type} (covers : ρ → α → Prop) [∀ r a, Decidable (covers r a)]
  (value : ρ → α → β)

/-- Values that are laid over each other: the last one that covers a place is seen there. -/
def overlay : List ρ → (α → β) → α → β
  | [], base => base
  | r :: rest, base => overlay rest fun a => if covers r a then value r a else base a

variable {covers value} {layers : List ρ} {base : α → β} {a : α} {v : β}

theorem overlay_uncovered (bare : ∀ r ∈ layers, ¬ covers r a) :
    overlay covers value layers base a = base a := by
  induction layers generalizing base with
  | nil => rfl
  | cons r rest ih =>
      obtain ⟨first, others⟩ := List.forall_mem_cons.mp bare
      rw [overlay, ih others, if_neg first]

theorem overlay_of_agree (covered : ∃ r ∈ layers, covers r a)
    (agree : ∀ r ∈ layers, covers r a → value r a = v) :
    overlay covers value layers base a = v := by
  induction layers generalizing base with
  | nil => simp at covered
  | cons r rest ih =>
      obtain ⟨first, others⟩ := List.forall_mem_cons.mp agree
      rw [overlay]
      by_cases later : ∃ r ∈ rest, covers r a
      · exact ih later others
      · have bare : ∀ r ∈ rest, ¬ covers r a := by simpa using later
        have here : covers r a := by simpa [later] using covered
        rw [overlay_uncovered bare, if_pos here, first here]

end Overlay

end X86
