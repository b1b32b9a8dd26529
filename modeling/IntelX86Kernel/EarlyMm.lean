import IntelX86Kernel.Paging
import IntelX86Kernel.State

/-! The first page tables, as kernel/boot/early_mm.c sets them up, and the check of the linker
symbols before that. -/

namespace IntelX86Kernel

open X86

/-- The addresses of the linker symbols, of the page directory and of the page tables;
`binaryEnd` is `_end`. -/
structure Symbols where
  start : Word
  textStart : Word
  textEnd : Word
  multibootStart : Word
  multibootEnd : Word
  bootstrapStackStart : Word
  bootstrapStackEnd : Word
  rodataStart : Word
  rodataEnd : Word
  dataStart : Word
  dataEnd : Word
  bssStart : Word
  bssEnd : Word
  binaryEnd : Word
  memEnd : Word
  pgdir : Word
  pgtab : Word

def PAGE_DIR_FLAGS : Word := 3
def PAGE_TABLE_RO : Word := 1
def PAGE_TABLE_RW : Word := 3

/-- `ASSERT_ALIGNED`, which halts for ever when it fails. -/
def assertAligned (symbol : Word) : Except Fault Unit :=
  if symbol &&& 0xFFFFF000#32 ≠ symbol then .error .hang else .ok ()

/-- `ASSERT_CONSISTENT`, on signed numbers. -/
def assertConsistent (start stop : Word) : Except Fault Unit :=
  if (stop - start).toInt < 4096 then .error .hang else .ok ()

namespace Symbols

variable (s : Symbols)

def earlyMmCheck : Except Fault Unit := do
  assertAligned s.start
  -- .text section
  assertAligned s.textStart
  assertAligned s.textEnd
  assertConsistent s.textStart s.textEnd
  -- .multiboot section
  assertAligned s.multibootStart
  assertAligned s.multibootEnd
  assertConsistent s.multibootStart s.multibootEnd
  -- .bootstrap_stack section
  assertAligned s.bootstrapStackStart
  assertAligned s.bootstrapStackEnd
  assertConsistent s.bootstrapStackStart s.bootstrapStackEnd
  -- .rodata section
  assertAligned s.rodataStart
  assertAligned s.rodataEnd
  assertConsistent s.rodataStart s.rodataEnd
  -- .data section
  assertAligned s.dataStart
  assertAligned s.dataEnd
  assertConsistent s.dataStart s.dataEnd
  -- .bss section
  assertAligned s.dataStart
  assertAligned s.dataEnd
  assertConsistent s.dataStart s.dataEnd
  -- The whole kernel
  assertConsistent s.start s.binaryEnd

end Symbols

/-- The arguments of a call of `early_mm_map_region`. -/
structure Region where
  start : Word
  stop : Word
  flags : Word

def earlyMmFillPgdir (m : Memory) (pagedir pagetab : Word) (count : Nat) : Memory :=
  let m := (List.range count).foldl (fun m i =>
    m.write (pagedir + 4 * .ofNat 32 i) ((pagetab + .ofNat 32 i * 0x1000) ||| PAGE_DIR_FLAGS)) m
  (List.range' count (1024 - count)).foldl (fun m i => m.write (pagedir + 4 * .ofNat 32 i) 0) m

def mapRegionLoop (pdir stop flags : Word) : Nat → Memory → Word → Except Fault Memory
  | 0, _, _ => .error .hang
  | turns + 1, m, address =>
      if address < stop then
        let pdIndex := address >>> 22
        let ptIndex := (address >>> 12) &&& 0x3FF#32
        let ptable := m.read (pdir + 4 * pdIndex) &&& 0xFFFFF000#32
        mapRegionLoop pdir stop flags turns
          (m.write (ptable + 4 * ptIndex) ((address &&& 0xFFFFF000#32) ||| flags)) (address + 4096)
      else .ok m

/-- There are no more pages than `2 ^ 20`. -/
def earlyMmMapRegion (m : Memory) (pdir : Word) (r : Region) : Except Fault Memory :=
  mapRegionLoop pdir r.stop r.flags (2 ^ 20 + 1) m r.start

namespace Symbols

variable (s : Symbols)

/-- The calls of `early_mm_map_region` for the first megabyte and the sections, in their order. -/
def sections : List Region :=
  [⟨4096, s.start, PAGE_TABLE_RW⟩,
    ⟨s.start, s.textStart, PAGE_TABLE_RW⟩,
    ⟨s.textStart, s.textEnd, PAGE_TABLE_RO⟩,
    ⟨s.multibootStart, s.multibootEnd, PAGE_TABLE_RO⟩,
    ⟨s.rodataStart, s.rodataEnd, PAGE_TABLE_RO⟩,
    ⟨s.bootstrapStackStart, s.bootstrapStackEnd, PAGE_TABLE_RW⟩,
    ⟨s.dataStart, s.dataEnd, PAGE_TABLE_RW⟩,
    ⟨s.bssStart, s.bssEnd, PAGE_TABLE_RW⟩]

def regions : List Region := s.sections ++ [⟨s.binaryEnd, s.memEnd, PAGE_TABLE_RW⟩]

def earlyMmMapKernel (m : Memory) : Except Fault Memory :=
  let m := m.memset s.pgtab 0 (4096 * 64)
  let m := earlyMmFillPgdir m s.pgdir s.pgtab 64
  let m := m.write s.pgtab 0
  s.regions.foldlM (fun m r => earlyMmMapRegion m s.pgdir r) m

end Symbols

def Region.Aligned (r : Region) : Prop := PageAligned r.start ∧ PageAligned r.stop

variable {s : Symbols} {a b : Word}

variable {f : Unit → Except Fault Unit}

theorem assertAligned_ok :
    (assertAligned a >>= f) = .ok () ↔ PageAligned a ∧ f () = .ok () := by
  rw [assertAligned, ← pageAligned_iff]
  split
  · next apart => exact ⟨nofun, fun both => absurd both.1 apart⟩
  · next same => exact ⟨fun rest => ⟨not_not.mp same, rest⟩, And.right⟩

theorem assertConsistent_ok :
    (assertConsistent a b >>= f) = .ok () ↔ 4096 ≤ (b - a).toInt ∧ f () = .ok () := by
  rw [assertConsistent]
  split
  · next small => exact ⟨nofun, fun both => absurd both.1 (Int.not_le.mpr small)⟩
  · next large => exact ⟨fun rest => ⟨Int.not_lt.mp large, rest⟩, And.right⟩

namespace Symbols

/-- The boundaries of the sections are multiples of the size of a page, .bss excepted. -/
structure Checked (s : Symbols) : Prop where
  start : PageAligned s.start
  textStart : PageAligned s.textStart
  textEnd : PageAligned s.textEnd
  multibootStart : PageAligned s.multibootStart
  multibootEnd : PageAligned s.multibootEnd
  bootstrapStackStart : PageAligned s.bootstrapStackStart
  bootstrapStackEnd : PageAligned s.bootstrapStackEnd
  rodataStart : PageAligned s.rodataStart
  rodataEnd : PageAligned s.rodataEnd
  dataStart : PageAligned s.dataStart
  dataEnd : PageAligned s.dataEnd

theorem checked_of_returns (returns : s.earlyMmCheck = .ok ()) : s.Checked := by
  simp only [earlyMmCheck, assertAligned_ok, assertConsistent_ok] at returns
  obtain ⟨start, textStart, textEnd, -, multibootStart, multibootEnd, -, bootstrapStackStart,
    bootstrapStackEnd, -, rodataStart, rodataEnd, -, dataStart, dataEnd, -⟩ := returns
  exact ⟨start, textStart, textEnd, multibootStart, multibootEnd, bootstrapStackStart,
    bootstrapStackEnd, rodataStart, rodataEnd, dataStart, dataEnd⟩

/-- After the check, the precondition of the mapper is met for all sections exactly when the
boundaries of .bss, which it does not look at, are aligned. -/
theorem check_covers_iff (returns : s.earlyMmCheck = .ok ()) :
    (∀ r ∈ s.sections, r.Aligned) ↔ PageAligned s.bssStart ∧ PageAligned s.bssEnd := by
  have checked := checked_of_returns returns
  constructor
  · intro aligned
    have bss : Region.mk s.bssStart s.bssEnd PAGE_TABLE_RW ∈ s.sections :=
      List.mem_of_getLast? rfl
    exact aligned _ bss
  · intro bss
    have first : PageAligned 4096 := by decide
    simp only [sections, List.forall_mem_cons, List.not_mem_nil, false_imp_iff, implies_true,
      and_true]
    exact ⟨⟨first, checked.start⟩, ⟨checked.start, checked.textStart⟩,
      ⟨checked.textStart, checked.textEnd⟩, ⟨checked.multibootStart, checked.multibootEnd⟩,
      ⟨checked.rodataStart, checked.rodataEnd⟩,
      ⟨checked.bootstrapStackStart, checked.bootstrapStackEnd⟩,
      ⟨checked.dataStart, checked.dataEnd⟩, bss⟩

def layout (bssStart bssEnd : Word) : Symbols where
  start := 0x100000
  textStart := 0x101000
  textEnd := 0x102000
  multibootStart := 0x102000
  multibootEnd := 0x103000
  bootstrapStackStart := 0x103000
  bootstrapStackEnd := 0x104000
  rodataStart := 0x104000
  rodataEnd := 0x105000
  dataStart := 0x105000
  dataEnd := 0x106000
  bssStart := bssStart
  bssEnd := bssEnd
  binaryEnd := bssEnd
  memEnd := 0x10000000
  pgdir := 0x30000
  pgtab := 0x40000

theorem check_covers_iff_aligned :
    (∀ r ∈ (layout 0x106000 0x108000).sections, r.Aligned) ↔
      PageAligned 0x106000 ∧ PageAligned 0x108000 :=
  check_covers_iff (s := layout 0x106000 0x108000) rfl

/-- The check returns although .bss begins in the middle of a page. -/
theorem check_misses_bss :
    ¬ ∀ s : Symbols, s.earlyMmCheck = .ok () → ∀ r ∈ s.sections, r.Aligned := by
  intro covers
  have bss : Region.mk 0x106010 0x108000 PAGE_TABLE_RW ∈ (layout 0x106010 0x108000).sections :=
    List.mem_of_getLast? rfl
  have aligned := covers (layout 0x106010 0x108000) rfl _ bss
  exact absurd aligned.1 (by decide)

end Symbols

end IntelX86Kernel
