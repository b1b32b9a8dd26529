import IntelX86Kernel.GdbMemory

/-! What gdb can read and write of the kernel, through the page tables that kernel/boot/early_mm.c
sets up. -/

namespace IntelX86Kernel

open X86 (Word Memory Tables Block PageAligned InPages overlay consecutive consecutive_get
  consecutive_length consecutive_distinct)
open X86.Memory (overwrite_of_places)

variable {m : Memory} {client : Client} {a va : Word} {size : Nat} {t : Tables}

theorem index_small (va : Word) : va.toNat / 4096 / 1024 < 1024 := by
  have bound := va.isLt
  omega

theorem directory_entry (va : Word) (d : t.Directory m) :
    (∃ i < t.count, va.toNat / 4096 / 1024 = i ∧
      m.read (t.dir.base + (4 : Word) * (va >>> 22)) = t.table i ||| 3) ∨
    (1024 * t.count ≤ va.toNat / 4096 ∧
      m.read (t.dir.base + (4 : Word) * (va >>> 22)) = 0) := by
  rw [X86.directory_index, Block.word_eq]
  by_cases inside : va.toNat / 4096 / 1024 < t.count
  · exact .inl ⟨_, inside, rfl, d.first _ inside⟩
  · exact .inr ⟨by omega, d.rest _ (index_small va) (Nat.le_of_not_lt inside)⟩

theorem directory_small (va : Word) (d : t.Directory m) :
    m.read (t.dir.base + (4 : Word) * (va >>> 22)) &&& 0x80#32 = 0 := by
  have seven : 0x80#32 = BitVec.twoPow 32 7 := rfl
  rw [seven, bit_clear 7 (by decide)]
  rcases directory_entry va d with ⟨i, inside, -, entry⟩ | ⟨-, entry⟩
  · rw [entry, X86.flag_of_entry (Tables.table_aligned inside) (by decide)]
    decide
  · rw [entry]
    decide

theorem walks_tables (d : t.Directory m) (base : client.cr3 &&& 0xfffff000#32 = t.dir.base)
    (walks : Walks m client va a) : t.dir.Contains a ∨ t.tab.Contains a := by
  have word {c : Block} {w : Word} (holds : c.Holds w 4) (near : (a - w).toNat < 4) :
      c.Contains a := by
    have contains := holds.contains near
    rwa [BitVec.add_comm, BitVec.sub_add_cancel] at contains
  have whole := t.whole
  have sized := t.sized
  have index := index_small va
  simp only [Walks] at walks
  rw [base, directory_index_bits] at walks
  rcases walks with ⟨-, upper | ⟨valid, -, lower⟩⟩
  · rw [X86.directory_index, Block.word_eq] at upper
    exact .inl (word (Block.holds_word (by omega)) upper)
  · rcases directory_entry va d with ⟨i, inside, same, entry⟩ | ⟨-, entry⟩
    · rw [d.slot (by omega)] at lower
      exact .inr (word (Block.holds_word (by omega)) lower)
    · rw [entry] at valid
      exact absurd rfl valid

namespace Symbols

variable {s : Symbols} {placed : s.Placed}

def Mapped (s : Symbols) (a : Word) : Prop := ∃ r ∈ s.regions, r.Covers (a.toNat / 4096)

instance (s : Symbols) (a : Word) : Decidable (s.Mapped a) :=
  inferInstanceAs (Decidable (∃ r ∈ s.regions, _))

theorem inPages_of_covers {r : Region} (covers : r.Covers (a.toNat / 4096)) :
    InPages r.start r.stop a := by
  obtain ⟨above, below⟩ := covers
  have bound := r.stop.isLt
  have place : (BitVec.ofNat 32 (4096 * (a.toNat / 4096) + r.start.toNat % 4096)).toNat =
      4096 * (a.toNat / 4096) + r.start.toNat % 4096 := by
    rw [BitVec.toNat_ofNat]
    omega
  refine ⟨.ofNat 32 (4096 * (a.toNat / 4096) + r.start.toNat % 4096), ?_, ?_, ?_⟩
  · rw [BitVec.le_def, place]
    omega
  · rw [BitVec.lt_def, place]
    exact below
  · apply BitVec.eq_of_toNat_eq
    rw [BitVec.toNat_ushiftRight, BitVec.toNat_ushiftRight, Nat.shiftRight_eq_div_pow,
      Nat.shiftRight_eq_div_pow, place]
    omega

structure KernelClient (s : Symbols) (client : Client) : Prop where
  paged : client.cr0 &&& 0x80000000#32 ≠ 0
  directory : client.cr3 = s.pgdir

theorem KernelClient.base (placed : s.Placed) (kernel : s.KernelClient client) :
    client.cr3 &&& 0xfffff000#32 = (tables placed).dir.base := by
  rw [kernel.directory]
  exact X86.pageAligned_iff.mpr placed.pgdir

variable (ordered : s.Ordered) (kernel : s.KernelClient client)
  (shows : (tables placed).Shows m (overlay Region.Covers Region.entry s.regions fun _ => 0))

include ordered kernel shows

/-- Through the page tables of the kernel an address is where it was, or it is not mapped. -/
theorem clientAddress_kernel :
    clientAddress m client va = if s.Mapped va then some va else none := by
  have base := kernel.base placed
  have small := directory_small va shows.directory
  rw [← base] at small
  rw [clientAddress_translate kernel.paged small, base]
  by_cases mapped : s.Mapped va
  · obtain ⟨r, member, covers⟩ := mapped
    have there := translate_region ordered shows member (inPages_of_covers covers)
    rw [if_pos ⟨r, member, covers⟩]
    exact congrArg (Option.map X86.Translation.physical) there
  · have uncovered : ∀ r ∈ s.regions, ¬ r.Covers (va.toNat / 4096) := by
      intro r member covers
      exact mapped ⟨r, member, covers⟩
    have unmapped : m.translate (tables placed).dir.base va = none := by
      rcases directory_entry va shows.directory with ⟨i, inside, same, entry⟩ | ⟨-, entry⟩
      · apply shows.translate_empty (by omega)
        exact X86.overlay_uncovered uncovered
      · have absent : ¬ (0 : Word).getLsbD 0 = true := by decide
        rw [Memory.translate, entry, if_neg absent]
    rw [if_neg mapped, unmapped]
    rfl

theorem reaches_kernel {k : Nat} (few : k ≤ size) (mapped : ∀ i < k, s.Mapped (a + .ofNat 32 i))
    (ends : k = size ∨ ¬ s.Mapped (a + .ofNat 32 k))
    (apart : ∀ i < k, ¬ (tables placed).dir.Contains (a + .ofNat 32 i) ∧
      ¬ (tables placed).tab.Contains (a + .ofNat 32 i)) :
    Reaches m client a size (consecutive a k) := by
  have address (va : Word) : clientAddress m client va = if s.Mapped va then some va else none :=
    clientAddress_kernel ordered kernel shows
  refine ⟨?_, ?_, ?_⟩
  · intro i p found
    obtain ⟨inside, rfl⟩ := consecutive_get found
    rw [address, if_pos (mapped i inside)]
  · rw [consecutive_length]
    rcases ends with all | unmapped
    · exact .inl all
    · by_cases all : k = size
      · exact .inl all
      · refine .inr ⟨by omega, ?_⟩
        rw [address, if_neg unmapped]
  · intro i inside p member walks
    obtain ⟨j, place⟩ := List.mem_iff_getElem?.mp member
    obtain ⟨near, rfl⟩ := consecutive_get place
    obtain ⟨directory, tables⟩ := apart j near
    rcases walks_tables shows.directory (kernel.base placed) walks with inDirectory | inTables
    · exact directory inDirectory
    · exact tables inTables

omit ordered kernel shows

/-- With the first page tables of the kernel, gdb writes and reads the memory that they map, also
what is protected against writing, and it fails at the first page that they do not map. -/
theorem gdb_patches_kernel (placed : s.Placed) (ordered : s.Ordered) (m : Memory) :
    ∃ m', s.earlyMmMapKernel m = .ok m' ∧
      ∀ (client : Client) (a : Word) (bytes : List (BitVec 8)) (k : Nat), s.KernelClient client →
        bytes.length < 2 ^ 32 → k ≤ bytes.length →
        (∀ i < k, s.Mapped (a + .ofNat 32 i) ∧ ¬ (tables placed).dir.Contains (a + .ofNat 32 i) ∧
          ¬ (tables placed).tab.Contains (a + .ofNat 32 i)) →
        (k = bytes.length ∨ ¬ s.Mapped (a + .ofNat 32 k)) →
        gdbCopyout m' client bytes a = (m'.overwrite a (bytes.take k), decide (k = bytes.length)) ∧
          gdbCopyin (m'.overwrite a (bytes.take k)) client a bytes.length =
            (bytes.take k, decide (k = bytes.length)) := by
  obtain ⟨m', returns, shows⟩ := mapKernel_shows placed ordered m
  refine ⟨m', returns, ?_⟩
  intro client a bytes k kernel room few mapped ends
  have reaches := reaches_kernel ordered kernel shows few (fun i inside => (mapped i inside).1) ends
    fun i inside => (mapped i inside).2
  have distinct : (consecutive a k).Nodup := consecutive_distinct (by omega)
  obtain ⟨m'', written, outside, inside⟩ := writeBytes_places reaches distinct
  have size : (bytes.take k).length = k := by
    rw [List.length_take]
    omega
  rw [consecutive_length] at inside written
  have result : m'' = m'.overwrite a (bytes.take k) := by
    apply overwrite_of_places
    · rwa [size]
    · rwa [size]
  rw [gdbCopyout_eq reaches room, gdbCopyin_eq, written, ← result,
    readBytes_places (reaches.kept outside), inside, consecutive_length]
  exact ⟨rfl, rfl⟩

/-- A breakpoint in the code of the kernel, which is protected against writing. -/
theorem gdb_patches_text : ∃ m', (layout 0x106000 0x108000).earlyMmMapKernel (fun _ => 0) = .ok m' ∧
    gdbCopyout m' ⟨0x80000000, (layout 0x106000 0x108000).pgdir⟩ [0xcc]
        (layout 0x106000 0x108000).textStart =
      (m'.overwrite (layout 0x106000 0x108000).textStart [0xcc], true) := by
  obtain ⟨m', returns, patches⟩ := gdb_patches_kernel layout_placed layout_ordered fun _ => 0
  have kernel : (layout 0x106000 0x108000).KernelClient
      ⟨0x80000000, (layout 0x106000 0x108000).pgdir⟩ := ⟨by decide, rfl⟩
  have patched := patches _ (layout 0x106000 0x108000).textStart [0xcc] 1 kernel (by decide)
    (by decide) (by decide) (by decide)
  exact ⟨m', returns, patched.1⟩

end Symbols

end IntelX86Kernel
