import IntelX86Kernel.EarlyMm

/-! What the first page tables say about the memory of the kernel. -/

namespace IntelX86Kernel

open X86

def Region.Covers (r : Region) (page : Nat) : Prop :=
  r.start.toNat / 4096 ≤ page ∧ 4096 * page + r.start.toNat % 4096 < r.stop.toNat

instance (r : Region) (page : Nat) : Decidable (r.Covers page) :=
  inferInstanceAs (Decidable (_ ∧ _))

def Region.entry (r : Region) (page : Nat) : Word := .ofNat 32 (4096 * page) ||| r.flags

variable {t : Tables} {m : Memory} {entries : Nat → Word} {stop flags address : Word} {page : Nat}

theorem next_page (less : address < stop) (room : stop.toNat + 4096 ≤ 2 ^ 32) :
    (address + 4096).toNat = address.toNat + 4096 := by
  have below : address.toNat < stop.toNat := less
  have size : (4096 : Word).toNat = 4096 := rfl
  rw [BitVec.toNat_add, size]
  omega

theorem covers_step (less : address < stop) (room : stop.toNat + 4096 ≤ 2 ^ 32) :
    (Region.mk address stop flags).Covers page ↔
      page = address.toNat / 4096 ∨ (Region.mk (address + 4096) stop flags).Covers page := by
  have below : address.toNat < stop.toNat := less
  simp only [Region.Covers, next_page less room]
  omega

theorem laid_step (less : address < stop) (room : stop.toNat + 4096 ≤ 2 ^ 32) :
    (fun page => if (Region.mk address stop flags).Covers page then
        (Region.mk address stop flags).entry page else entries page) =
      fun page => if (Region.mk (address + 4096) stop flags).Covers page then
        (Region.mk (address + 4096) stop flags).entry page
      else Function.update entries (address.toNat / 4096)
        ((address &&& 0xFFFFF000#32) ||| flags) page := by
  funext page
  by_cases later : (Region.mk (address + 4096) stop flags).Covers page
  · rw [if_pos later, if_pos ((covers_step less room).mpr (.inr later)), Region.entry, Region.entry]
  · rw [if_neg later]
    by_cases here : page = address.toNat / 4096
    · rw [here, Function.update_self, if_pos ((covers_step less room).mpr (.inl rfl)), Region.entry,
        page_mask_ofNat]
    · have bare : ¬ (Region.mk address stop flags).Covers page := by
        rw [covers_step less room]
        exact not_or.mpr ⟨here, later⟩
      rw [if_neg bare, Function.update_of_ne here]

theorem uncovered_at_end (done : ¬ address < stop) : ¬ (Region.mk address stop flags).Covers page := by
  have beyond : stop.toNat ≤ address.toNat := BitVec.not_lt.mp done
  rintro ⟨after, before⟩
  dsimp only at after before
  omega

theorem mapRegionLoop_next {pdir : Word} {turns : Nat} (less : address < stop) :
    mapRegionLoop pdir stop flags (turns + 1) m address =
      mapRegionLoop pdir stop flags turns
        (m.write ((m.read (pdir + (4 : Word) * (address >>> 22)) &&& 0xFFFFF000#32) +
          (4 : Word) * ((address >>> 12) &&& 0x3FF#32)) ((address &&& 0xFFFFF000#32) ||| flags))
        (address + 4096) :=
  if_pos less

theorem mapRegionLoop_shows {turns : Nat} (shows : t.Shows m entries)
    (last : stop.toNat ≤ 4096 * (1024 * t.count)) (few : t.count < 1024)
    (enough : stop.toNat ≤ address.toNat + 4096 * turns) :
    ∃ m', mapRegionLoop t.dir.base stop flags (turns + 1) m address = .ok m' ∧
      t.Shows m' fun page => if (Region.mk address stop flags).Covers page then
        (Region.mk address stop flags).entry page else entries page := by
  have room : stop.toNat + 4096 ≤ 2 ^ 32 := by omega
  induction turns generalizing m address entries with
  | zero =>
      have done : ¬ address < stop := BitVec.not_lt.mpr enough
      refine ⟨m, if_neg done, ?_⟩
      simpa only [if_neg (uncovered_at_end done)] using shows
  | succ turns ih =>
      by_cases less : address < stop
      · have below : address.toNat / 4096 < 1024 * t.count := by
          have less' : address.toNat < stop.toNat := less
          omega
        have next := next_page less room
        have written := shows.write (v := (address &&& 0xFFFFF000#32) ||| flags) below
        have enough' : stop.toNat ≤ (address + 4096).toNat + 4096 * turns := by omega
        obtain ⟨m', returns, shows'⟩ := ih written enough'
        refine ⟨m', ?_, ?_⟩
        · rw [mapRegionLoop_next less, shows.directory.slot below, returns]
        · rwa [laid_step less room]
      · refine ⟨m, if_neg less, ?_⟩
        simpa only [if_neg (uncovered_at_end less)] using shows

theorem mapRegion_shows {r : Region} (shows : t.Shows m entries) (few : t.count < 1024)
    (last : r.stop.toNat ≤ 4096 * (1024 * t.count)) :
    ∃ m', earlyMmMapRegion m t.dir.base r = .ok m' ∧
      t.Shows m' fun page => if r.Covers page then r.entry page else entries page := by
  have bound := r.stop.isLt
  exact mapRegionLoop_shows shows last few (by omega)

theorem mapRegions_shows {regions : List Region} (shows : t.Shows m entries)
    (few : t.count < 1024) (last : ∀ r ∈ regions, r.stop.toNat ≤ 4096 * (1024 * t.count)) :
    ∃ m', regions.foldlM (fun m r => earlyMmMapRegion m t.dir.base r) m = .ok m' ∧
      t.Shows m' (overlay Region.Covers Region.entry regions entries) := by
  induction regions generalizing m entries with
  | nil => exact ⟨m, rfl, shows⟩
  | cons r rest ih =>
      obtain ⟨first, others⟩ := List.forall_mem_cons.mp last
      obtain ⟨m₁, returns, shows₁⟩ := mapRegion_shows shows few first
      obtain ⟨m₂, returns₂, shows₂⟩ := ih shows₁ others
      refine ⟨m₂, ?_, shows₂⟩
      rw [List.foldlM_cons, returns]
      exact returns₂

theorem fillPgdir_eq : earlyMmFillPgdir m t.dir.base t.tab.base t.count =
    t.dir.writes (fun _ => 0) (t.dir.writes (fun i => t.table i ||| 3) m (List.range t.count))
      (List.range' t.count (1024 - t.count)) := by
  simp only [earlyMmFillPgdir, Block.word_eq]
  rfl

theorem fillPgdir_directory :
    t.Directory (earlyMmFillPgdir m t.dir.base t.tab.base t.count) := by
  have few := t.few
  have below : ∀ i ∈ List.range t.count, 4 * i + 4 ≤ t.dir.bytes := by
    intro i member
    exact Tables.room (by have inside := List.mem_range.mp member; omega)
  have behind : ∀ i ∈ List.range' t.count (1024 - t.count), 4 * i + 4 ≤ t.dir.bytes := by
    intro i member
    exact Tables.room (by have inside := List.mem_range'_1.mp member; omega)
  rw [fillPgdir_eq]
  constructor
  · intro i small
    have absent : i ∉ List.range' t.count (1024 - t.count) := by
      rw [List.mem_range'_1]
      omega
    rw [Block.read_writes behind (Tables.room (by omega)), if_neg absent,
      Block.read_writes below (Tables.room (by omega)), if_pos (List.mem_range.mpr small)]
  · intro i small beyond
    have present : i ∈ List.range' t.count (1024 - t.count) := by
      rw [List.mem_range'_1]
      omega
    rw [Block.read_writes behind (Tables.room small), if_pos present]

theorem fillPgdir_apart {a : Word} (inside : t.tab.Holds a 4) :
    (earlyMmFillPgdir m t.dir.base t.tab.base t.count).read a = m.read a := by
  have few := t.few
  rw [fillPgdir_eq, Block.read_writes_apart t.apart _ inside,
    Block.read_writes_apart t.apart _ inside]
  · intro i member
    exact Tables.room (by have inside := List.mem_range.mp member; omega)
  · intro i member
    exact Tables.room (by have inside := List.mem_range'_1.mp member; omega)

theorem setup_shows (some : 0 < t.count) :
    t.Shows ((earlyMmFillPgdir (m.memset t.tab.base 0 t.tab.bytes) t.dir.base t.tab.base
      t.count).write (t.tab.word 0) 0) fun _ => 0 := by
  have sized := t.sized
  have filled : t.Shows (earlyMmFillPgdir (m.memset t.tab.base 0 t.tab.bytes) t.dir.base
      t.tab.base t.count) fun _ => 0 := by
    refine ⟨fillPgdir_directory, fun page below => ?_⟩
    have inside : t.tab.Holds (t.tab.word page) 4 := Block.holds_word (by omega)
    rw [fillPgdir_apart inside, Block.read_memset inside]
  have inside : 0 < 1024 * t.count := by omega
  have first := filled.write (v := 0) inside
  rwa [Function.update_eq_self] at first

namespace Symbols

/-- Where the page directory and the page tables are. -/
structure Placed (s : Symbols) : Prop where
  pgdir : PageAligned s.pgdir
  pgtab : PageAligned s.pgtab
  fits : s.pgtab.toNat + 4096 * 64 ≤ 2 ^ 32
  distinct : s.pgdir.toNat + 4096 ≤ s.pgtab.toNat ∨ s.pgtab.toNat + 4096 * 64 ≤ s.pgdir.toNat

def boundaries (s : Symbols) : List Word :=
  [4096, s.start, s.textStart, s.textEnd, s.multibootStart, s.multibootEnd, s.bootstrapStackStart,
    s.bootstrapStackEnd, s.rodataStart, s.rodataEnd, s.dataStart, s.dataEnd, s.bssStart, s.bssEnd,
    s.memEnd]

structure Ordered (s : Symbols) : Prop where
  aligned : ∀ a ∈ s.boundaries, PageAligned a
  increasing : s.boundaries.IsChain (· ≤ ·)
  binaryEnd : s.bssStart ≤ s.binaryEnd ∧ s.binaryEnd ≤ s.bssEnd
  supported : s.memEnd ≤ 0x10000000

variable {s : Symbols}

def tables (placed : s.Placed) : Tables where
  dir := ⟨s.pgdir, 4096, by
    have aligned : 4096 ∣ s.pgdir.toNat := placed.pgdir
    have bound := s.pgdir.isLt
    omega⟩
  tab := ⟨s.pgtab, 4096 * 64, placed.fits⟩
  count := 64
  few := by decide
  whole := rfl
  sized := rfl
  aligned := placed.pgtab
  apart := placed.distinct

@[simp] theorem tables_count (placed : s.Placed) : (tables placed).count = 64 := rfl

/-- The pages that have to be protected against writing. -/
def ReadOnly (s : Symbols) (page : Nat) : Prop :=
  s.textStart.toNat ≤ 4096 * page ∧ 4096 * page < s.multibootEnd.toNat ∨
    s.rodataStart.toNat ≤ 4096 * page ∧ 4096 * page < s.rodataEnd.toNat

instance (s : Symbols) (page : Nat) : Decidable (s.ReadOnly page) :=
  inferInstanceAs (Decidable (_ ∨ _))

theorem flags_of_covers (ordered : s.Ordered) {r : Region} (member : r ∈ s.regions)
    (covers : r.Covers page) :
    r.flags = if s.ReadOnly page then PAGE_TABLE_RO else PAGE_TABLE_RW := by
  obtain ⟨aligned, increasing, ⟨after, before⟩, -⟩ := ordered
  have readOnly (inside : s.ReadOnly page) :
      PAGE_TABLE_RO = if s.ReadOnly page then PAGE_TABLE_RO else PAGE_TABLE_RW :=
    (if_pos inside).symm
  have writable (outside : ¬ s.ReadOnly page) :
      PAGE_TABLE_RW = if s.ReadOnly page then PAGE_TABLE_RO else PAGE_TABLE_RW :=
    (if_neg outside).symm
  simp only [boundaries, List.forall_mem_cons, PageAligned] at aligned
  simp only [boundaries, List.isChain_cons_cons, BitVec.le_def] at increasing
  rw [BitVec.le_def] at after before
  simp only [regions, sections, List.cons_append, List.nil_append, List.mem_cons,
    List.not_mem_nil, or_false] at member
  rcases member with rfl | rfl | rfl | rfl | rfl | rfl | rfl | rfl | rfl
  all_goals
    rw [Region.Covers] at covers
    simp only at covers
  · exact writable (by rw [ReadOnly]; omega)
  · exact writable (by rw [ReadOnly]; omega)
  · exact readOnly (by rw [ReadOnly]; omega)
  · exact readOnly (by rw [ReadOnly]; omega)
  · exact readOnly (by rw [ReadOnly]; omega)
  · exact writable (by rw [ReadOnly]; omega)
  · exact writable (by rw [ReadOnly]; omega)
  · exact writable (by rw [ReadOnly]; omega)
  · exact writable (by rw [ReadOnly]; omega)

theorem region_bounds (ordered : s.Ordered) : ∀ r ∈ s.regions,
    4096 ≤ r.start.toNat ∧ PageAligned r.stop ∧ r.stop.toNat ≤ 4096 * (1024 * 64) := by
  obtain ⟨aligned, increasing, ⟨after, before⟩, supported⟩ := ordered
  have bound : s.memEnd.toNat ≤ 4096 * (1024 * 64) := supported
  have first : (4096 : Word).toNat = 4096 := rfl
  simp only [boundaries, List.forall_mem_cons] at aligned
  simp only [boundaries, List.isChain_cons_cons, BitVec.le_def, first] at increasing
  rw [BitVec.le_def] at after before
  simp only [regions, sections, List.cons_append, List.nil_append, List.forall_mem_cons,
    List.not_mem_nil, false_imp_iff, implies_true, and_true, aligned, first, true_and]
  omega

theorem mapKernel_shows (placed : s.Placed) (ordered : s.Ordered) (m : Memory) :
    ∃ m', s.earlyMmMapKernel m = .ok m' ∧ (tables placed).Shows m'
      (overlay Region.Covers Region.entry s.regions fun _ => 0) := by
  have some : 0 < (tables placed).count := by simp
  have few : (tables placed).count < 1024 := by simp
  have ready := setup_shows (m := m) some
  have first : (tables placed).tab.word 0 = s.pgtab := BitVec.add_zero _
  rw [first] at ready
  obtain ⟨m', returns, shows⟩ := mapRegions_shows ready few fun r member =>
    (region_bounds ordered r member).2.2
  exact ⟨m', returns, shows⟩

theorem covers_of_inPages {r : Region} {a : Word} (aligned : PageAligned r.stop)
    (inside : InPages r.start r.stop a) : r.Covers (a.toNat / 4096) := by
  obtain ⟨b, above, below, same⟩ := inside.bounds
  have aligned' : 4096 ∣ r.stop.toNat := aligned
  rw [Region.Covers, ← same]
  omega

variable {m' : Memory} {a : Word}

theorem translate_region {placed : s.Placed} (ordered : s.Ordered)
    (shows : (tables placed).Shows m' (overlay Region.Covers Region.entry s.regions fun _ => 0))
    {r : Region} (member : r ∈ s.regions) (inside : InPages r.start r.stop a) :
    m'.translate s.pgdir a = some ⟨a, r.flags.getLsbD 1⟩ := by
  obtain ⟨-, aligned, supported⟩ := region_bounds ordered r member
  have covers : r.Covers (a.toNat / 4096) := covers_of_inPages aligned inside
  have below : a.toNat / 4096 < 1024 * (tables placed).count := by
    obtain ⟨-, before⟩ := covers
    rw [tables_count]
    omega
  have entry : overlay Region.Covers Region.entry s.regions (fun _ => 0) (a.toNat / 4096) =
      r.entry (a.toNat / 4096) := by
    apply overlay_of_agree ⟨r, member, covers⟩
    intro other member' covers'
    rw [Region.entry, Region.entry, flags_of_covers ordered member' covers',
      flags_of_covers ordered member covers]
  have flags : r.flags = PAGE_TABLE_RO ∨ r.flags = PAGE_TABLE_RW := by
    rw [flags_of_covers ordered member covers]
    exact ite_eq_or_eq _ _ _
  have valid : r.flags.toNat < 4096 ∧ r.flags.getLsbD 0 = true := by
    rcases flags with readOnly | writable
    · rw [readOnly]
      decide
    · rw [writable]
      decide
  exact shows.translate_present below valid.1 valid.2 entry

def InReadOnly (s : Symbols) (a : Word) : Prop :=
  InPages s.textStart s.textEnd a ∨ InPages s.multibootStart s.multibootEnd a ∨
    InPages s.rodataStart s.rodataEnd a

/-- The pages between the first one and .text, of the bootstrap stack, of .data and .bss, and
of the memory behind the binary. -/
def InWritable (s : Symbols) (a : Word) : Prop :=
  InPages 4096 s.textStart a ∨ InPages s.bootstrapStackStart s.bootstrapStackEnd a ∨
    InPages s.dataStart s.dataEnd a ∨ InPages s.bssStart s.bssEnd a ∨
    InPages s.binaryEnd s.memEnd a

structure Protects (s : Symbols) (m : Memory) : Prop where
  firstPage : ∀ a : Word, a < 4096 → m.translate s.pgdir a = none
  readOnly : ∀ a, s.InReadOnly a → m.translate s.pgdir a = some ⟨a, false⟩
  writable : ∀ a, s.InWritable a → m.translate s.pgdir a = some ⟨a, true⟩
  beyond : ∀ i, 64 ≤ i → i < 1024 →
    (m.read (s.pgdir + (4 : Word) * .ofNat 32 i)).getLsbD 0 = false

theorem translate_first_page {placed : s.Placed} (ordered : s.Ordered)
    (shows : (tables placed).Shows m' (overlay Region.Covers Region.entry s.regions fun _ => 0))
    (low : a < 4096) : m'.translate s.pgdir a = none := by
  have first : a.toNat / 4096 = 0 := Nat.div_eq_of_lt low
  have below : a.toNat / 4096 < 1024 * (tables placed).count := by
    rw [first, tables_count]
    decide
  apply shows.translate_empty below
  apply overlay_uncovered
  rintro r member ⟨before, -⟩
  obtain ⟨start, -⟩ := region_bounds ordered r member
  omega

/-- Every layout that is ordered as in the linker script is protected when the tables are set
up. -/
theorem mapKernel_protects (placed : s.Placed) (ordered : s.Ordered) (m : Memory) :
    ∃ m', s.earlyMmMapKernel m = .ok m' ∧ s.Protects m' := by
  obtain ⟨m', returns, shows⟩ := mapKernel_shows placed ordered m
  have mapped (a start stop flags : Word) (member : ⟨start, stop, flags⟩ ∈ s.regions)
      (inside : InPages start stop a) : m'.translate s.pgdir a = some ⟨a, flags.getLsbD 1⟩ :=
    translate_region ordered shows member inside
  refine ⟨m', returns, ?_, ?_, ?_, ?_⟩
  · intro a low
    exact translate_first_page ordered shows low
  · intro a inside
    rcases inside with text | multiboot | rodata
    · exact mapped a _ _ PAGE_TABLE_RO (by simp [regions, sections]) text
    · exact mapped a _ _ PAGE_TABLE_RO (by simp [regions, sections]) multiboot
    · exact mapped a _ _ PAGE_TABLE_RO (by simp [regions, sections]) rodata
  · intro a inside
    rcases inside with crt | stack | data | bss | free
    · rcases crt.split s.start with before | kernel
      · exact mapped a _ _ PAGE_TABLE_RW (by simp [regions, sections]) before
      · exact mapped a _ _ PAGE_TABLE_RW (by simp [regions, sections]) kernel
    · exact mapped a _ _ PAGE_TABLE_RW (by simp [regions, sections]) stack
    · exact mapped a _ _ PAGE_TABLE_RW (by simp [regions, sections]) data
    · exact mapped a _ _ PAGE_TABLE_RW (by simp [regions, sections]) bss
    · exact mapped a _ _ PAGE_TABLE_RW (by simp [regions, sections]) free
  · intro i beyond small
    have empty : m'.read (s.pgdir + (4 : Word) * .ofNat 32 i) = 0 := by
      rw [← shows.directory.rest i small beyond, ← Block.word_eq]
      rfl
    rw [empty]
    rfl

theorem layout_placed : (layout 0x106000 0x108000).Placed where
  pgdir := by decide
  pgtab := by decide
  fits := by decide
  distinct := by decide

theorem layout_ordered : (layout 0x106000 0x108000).Ordered where
  aligned := by simp [boundaries, layout, PageAligned]
  increasing := by decide
  binaryEnd := by decide
  supported := by decide

theorem mapKernel_protects_layout : ∃ m', (layout 0x106000 0x108000).earlyMmMapKernel (fun _ => 0) =
    .ok m' ∧ (layout 0x106000 0x108000).Protects m' :=
  mapKernel_protects layout_placed layout_ordered fun _ => 0

end Symbols

end IntelX86Kernel
