import IntelX86Kernel.PageTables
import IntelX86Kernel.Stretches

/-! The memory of the client as kernel/gdb_serial_support.c reaches it: through the page tables of
the client, with the paging of the processor disabled. -/

namespace IntelX86Kernel

open X86 (Word Memory page_within upper_bits consecutive consecutive_get consecutive_length
  consecutive_distinct)
open X86.Memory (place_succ)

structure Client where
  cr0 : Word
  cr3 : Word
  deriving DecidableEq

/-- `*paddr` and `*len`, unless `*len` is set to 0. -/
def physAddrLookup (m : Memory) (client : Client) (vaddr : Word) : Option (Word × Word) :=
  let pd := client.cr3 &&& 0xfffff000#32
  let pde := m.read (pd + (4 : Word) * ((vaddr >>> 22) &&& 0x3ff#32))
  if client.cr0 &&& 0x80000000#32 = 0 then some (vaddr, 0xffffffff)
  else if pde &&& 0x1#32 = 0 then none
  else if pde &&& 0x80#32 = 0 then
    let pt := pde &&& 0xfffff000#32
    let pte := m.read (pt + (4 : Word) * ((vaddr >>> 12) &&& 0x3ff#32))
    let offs := vaddr &&& 0xfff#32
    if pte &&& 0x1#32 = 0 then none
    else some ((pte &&& 0xfffff000#32) + offs, 0x1000 - offs)
  else
    let offs := vaddr &&& 0x3fffff#32
    some ((pde &&& ~~~0x3fffff#32) + offs, 0x400000 - offs)

variable {m m' : Memory} {client : Client} {va pa len a : Word} {j size : Nat}

def clientAddress (m : Memory) (client : Client) (va : Word) : Option Word :=
  (physAddrLookup m client va).map Prod.fst

theorem clientAddress_within (found : physAddrLookup m client va = some (pa, len))
    (inside : j < len.toNat) :
    clientAddress m client (va + .ofNat 32 j) = some (pa + .ofNat 32 j) := by
  simp only [physAddrLookup] at found
  simp only [clientAddress, physAddrLookup]
  split at found
  · rename_i flat
    obtain ⟨rfl, rfl⟩ := Prod.mk.inj (Option.some.inj found)
    rw [if_pos flat]
    rfl
  · rename_i paged
    split at found
    · cases found
    · rename_i valid
      split at found
      · rename_i small
        split at found
        · cases found
        · rename_i present
          obtain ⟨rfl, rfl⟩ := Prod.mk.inj (Option.some.inj found)
          obtain ⟨page, offset⟩ := @page_within va j 12 (by decide) inside
          have offset : (va + .ofNat 32 j) &&& 0xfff#32 = (va &&& 0xfff#32) + .ofNat 32 j := offset
          rw [upper_bits page, page, offset, if_neg paged, if_neg valid, if_pos small,
            if_neg present, Option.map_some, BitVec.add_assoc]
      · rename_i large
        obtain ⟨rfl, rfl⟩ := Prod.mk.inj (Option.some.inj found)
        obtain ⟨page, offset⟩ := @page_within va j 22 (by decide) inside
        have offset : (va + .ofNat 32 j) &&& 0x3fffff#32 = (va &&& 0x3fffff#32) + .ofNat 32 j :=
          offset
        rw [page, offset, if_neg paged, if_neg valid, if_neg large, Option.map_some,
          BitVec.add_assoc]

theorem rest_positive {k : Nat} (small : k ≤ 22) :
    0 < (.ofNat 32 (2 ^ k) - (va &&& .ofNat 32 (2 ^ k - 1)) : Word).toNat := by
  have power : 2 ^ k ≤ 2 ^ 22 := Nat.pow_le_pow_right (by decide) small
  have rest := Nat.mod_lt va.toNat (Nat.two_pow_pos k)
  have size : (BitVec.ofNat 32 (2 ^ k)).toNat = 2 ^ k := by
    rw [BitVec.toNat_ofNat]
    apply Nat.mod_eq_of_lt
    omega
  rw [BitVec.toNat_sub, X86.low_bits small, size]
  omega

theorem lookup_positive (found : physAddrLookup m client va = some (pa, len)) : 0 < len.toNat := by
  simp only [physAddrLookup] at found
  split at found
  · rw [← (Prod.mk.inj (Option.some.inj found)).2]
    decide
  · split at found
    · cases found
    · split at found
      · split at found
        · cases found
        · rw [← (Prod.mk.inj (Option.some.inj found)).2]
          exact rest_positive (k := 12) (by decide)
      · rw [← (Prod.mk.inj (Option.some.inj found)).2]
        exact rest_positive (k := 22) (by decide)

/-- The bytes that are copied, also before it fails, and whether it returns 0. -/
def gdbCopyin (m : Memory) (client : Client) (srcVa : Word) (size : Nat) :
    List (BitVec 8) × Bool :=
  if size = 0 then ([], true)
  else
    match _ : physAddrLookup m client srcVa with
    | none => ([], false)
    | some (pa, len) =>
        let sz := min len.toNat size
        let (rest, good) := gdbCopyin m client (srcVa + .ofNat 32 sz) (size - sz)
        (m.stretch pa sz ++ rest, good)
termination_by size
decreasing_by
  have positive := lookup_positive ‹_›
  omega

/-- The memory after the copy, also when it fails, and whether it returns 0. -/
def gdbCopyout (m : Memory) (client : Client) (src : List (BitVec 8)) (destVa : Word) :
    Memory × Bool :=
  if src = [] then (m, true)
  else
    match _ : physAddrLookup m client destVa with
    | none => (m, false)
    | some (pa, len) =>
        let sz := min len.toNat src.length
        gdbCopyout (m.overwrite pa (src.take sz)) client (src.drop sz) (destVa + .ofNat 32 sz)
termination_by src.length
decreasing_by
  have positive := lookup_positive ‹_›
  have nonempty := List.length_pos_of_ne_nil ‹_›
  rw [List.length_drop]
  omega

def readBytes (m : Memory) (client : Client) (va : Word) : Nat → List (BitVec 8) × Bool
  | 0 => ([], true)
  | size + 1 =>
      match clientAddress m client va with
      | none => ([], false)
      | some pa =>
          let (rest, good) := readBytes m client (va + 1) size
          (m pa :: rest, good)

def writeBytes (m : Memory) (client : Client) (va : Word) : List (BitVec 8) → Memory × Bool
  | [] => (m, true)
  | c :: rest =>
      match clientAddress m client va with
      | none => (m, false)
      | some pa => writeBytes (Function.update m pa c) client (va + 1) rest

variable {c : BitVec 8} {bytes : List (BitVec 8)} {places : List Word} {p : Word}

theorem readBytes_stretch (sz : Nat) (stretch : ∀ j < sz,
      clientAddress m client (va + .ofNat 32 j) = some (pa + .ofNat 32 j)) (inside : sz ≤ size) :
    readBytes m client va size =
      (m.stretch pa sz ++ (readBytes m client (va + .ofNat 32 sz) (size - sz)).1,
        (readBytes m client (va + .ofNat 32 sz) (size - sz)).2) := by
  induction sz generalizing va pa size with
  | zero =>
      rw [BitVec.add_zero]
      rfl
  | succ sz ih =>
      obtain ⟨size, rfl⟩ : ∃ k, size = k + 1 := ⟨size - 1, by omega⟩
      have first := stretch 0 (Nat.succ_pos sz)
      rw [BitVec.add_zero, BitVec.add_zero] at first
      have later : ∀ j < sz,
          clientAddress m client (va + 1 + .ofNat 32 j) = some (pa + 1 + .ofNat 32 j) := by
        intro j inside
        rw [← place_succ, ← place_succ]
        exact stretch (j + 1) (Nat.succ_lt_succ inside)
      have rest := ih later (Nat.le_of_succ_le_succ inside)
      rw [readBytes, first, Memory.stretch_succ, place_succ, Nat.add_sub_add_right]
      dsimp only
      rw [rest]
      rfl

/-- The copy of whole stretches is the copy of the bytes. -/
theorem gdbCopyin_eq : gdbCopyin m client va size = readBytes m client va size := by
  induction size using Nat.strong_induction_on generalizing va with
  | _ size ih =>
      rw [gdbCopyin]
      split
      · rename_i zero
        rw [zero]
        rfl
      · rename_i nonzero
        obtain ⟨size, rfl⟩ : ∃ k, size = k + 1 := ⟨size - 1, by omega⟩
        split
        · rename_i none
          rw [readBytes, clientAddress, none]
          rfl
        · rename_i pa len found
          have positive := lookup_positive found
          have stretch : ∀ j < min len.toNat (size + 1),
              clientAddress m client (va + .ofNat 32 j) = some (pa + .ofNat 32 j) := by
            intro j inside
            exact clientAddress_within found (Nat.lt_of_lt_of_le inside (Nat.min_le_left _ _))
          rw [readBytes_stretch _ stretch (Nat.min_le_right _ _)]
          dsimp only
          rw [ih _ (by omega)]

/-- The bytes of the entries that decide where an address of the client goes. -/
def Walks (m : Memory) (client : Client) (va a : Word) : Prop :=
  let pde := (client.cr3 &&& 0xfffff000#32) + (4 : Word) * ((va >>> 22) &&& 0x3ff#32)
  let pte := (m.read pde &&& 0xfffff000#32) + (4 : Word) * ((va >>> 12) &&& 0x3ff#32)
  client.cr0 &&& 0x80000000#32 ≠ 0 ∧ ((a - pde).toNat < 4 ∨
    m.read pde &&& 0x1#32 ≠ 0 ∧ m.read pde &&& 0x80#32 = 0 ∧ (a - pte).toNat < 4)

theorem read_kept {word : Word} (kept : ∀ b : Word, (b - word).toNat < 4 → m' b = m b) :
    m'.read word = m.read word := by
  have near (i : Word) (small : i.toNat < 4) : m' (word + i) = m (word + i) := by
    apply kept
    rwa [BitVec.add_comm, BitVec.add_sub_cancel]
  apply X86.Memory.read_congr
  · simpa using near 0 (by decide)
  · exact near 1 (by decide)
  · exact near 2 (by decide)
  · exact near 3 (by decide)

theorem lookup_congr (kept : ∀ b, Walks m client va b → m' b = m b) :
    physAddrLookup m' client va = physAddrLookup m client va := by
  simp only [physAddrLookup]
  by_cases flat : client.cr0 &&& 0x80000000#32 = 0
  · rw [if_pos flat, if_pos flat]
  · have upper :
        m'.read ((client.cr3 &&& 0xfffff000#32) + (4 : Word) * ((va >>> 22) &&& 0x3ff#32)) =
        m.read ((client.cr3 &&& 0xfffff000#32) + (4 : Word) * ((va >>> 22) &&& 0x3ff#32)) :=
      read_kept fun b near => kept b ⟨flat, .inl near⟩
    rw [upper, if_neg flat, if_neg flat]
    split
    · rfl
    · rename_i valid
      split
      · rename_i small
        have lower := read_kept fun b near => kept b ⟨flat, .inr ⟨valid, small, near⟩⟩
        rw [lower]
      · rfl

/-- Where the bytes from an address of the client on are, as far as they are mapped, and that none
of them is in an entry on the way to them. -/
structure Reaches (m : Memory) (client : Client) (va : Word) (size : Nat) (places : List Word) :
    Prop where
  mapped : ∀ i p, places[i]? = some p → clientAddress m client (va + .ofNat 32 i) = some p
  ends : places.length = size ∨
    places.length < size ∧ clientAddress m client (va + .ofNat 32 places.length) = none
  steady : ∀ i < size, ∀ p ∈ places, ¬ Walks m client (va + .ofNat 32 i) p

theorem Reaches.first (reaches : Reaches m client va size (p :: places)) :
    clientAddress m client va = some p := by
  have first := reaches.mapped 0 p rfl
  rwa [BitVec.add_zero] at first

theorem walks_update {b : Word} (steady : ¬ Walks m client va p) :
    Walks (Function.update m p c) client va b ↔ Walks m client va b := by
  simp only [Walks]
  apply and_congr_right
  intro paged
  have upper : Memory.read (Function.update m p c)
      ((client.cr3 &&& 0xfffff000#32) + (4 : Word) * ((va >>> 22) &&& 0x3ff#32)) =
      m.read ((client.cr3 &&& 0xfffff000#32) + (4 : Word) * ((va >>> 22) &&& 0x3ff#32)) := by
    apply read_kept
    intro b near
    apply Function.update_of_ne
    rintro rfl
    exact steady ⟨paged, .inl near⟩
  rw [upper]

theorem address_update (steady : ¬ Walks m client va p) :
    clientAddress (Function.update m p c) client va = clientAddress m client va := by
  rw [clientAddress, clientAddress, lookup_congr]
  intro b near
  apply Function.update_of_ne
  rintro rfl
  exact steady near

theorem Reaches.next (reaches : Reaches m client va (size + 1) (p :: places)) :
    Reaches (Function.update m p c) client (va + 1) size places := by
  have still (i : Nat) (inside : i < size + 1) :
      clientAddress (Function.update m p c) client (va + .ofNat 32 i) =
        clientAddress m client (va + .ofNat 32 i) :=
    address_update (reaches.steady i inside p List.mem_cons_self)
  have length : places.length ≤ size := by
    rcases reaches.ends with all | ⟨some, -⟩
    · exact Nat.le_of_eq (Nat.succ.inj all)
    · exact Nat.le_of_succ_le_succ (Nat.le_of_lt some)
  refine ⟨?_, ?_, ?_⟩
  · intro i q found
    have inside : i < places.length := (List.getElem?_eq_some_iff.mp found).1
    rw [← place_succ, still _ (by omega)]
    exact reaches.mapped (i + 1) q found
  · rcases reaches.ends with all | ⟨some, none⟩
    · exact .inl (Nat.succ.inj all)
    · refine .inr ⟨Nat.lt_of_succ_lt_succ some, ?_⟩
      rw [← place_succ, still (places.length + 1) some]
      exact none
  · intro i inside q member
    have later := reaches.steady (i + 1) (Nat.succ_lt_succ inside)
    rw [← place_succ, walks_update (later p List.mem_cons_self)]
    exact later q (List.mem_cons_of_mem p member)

theorem Reaches.nil_iff (reaches : Reaches m client va (size + 1) places) :
    places = [] ↔ clientAddress m client va = none := by
  constructor
  · rintro rfl
    rcases reaches.ends with all | ⟨-, none⟩
    · cases all
    · rwa [List.length_nil, BitVec.add_zero] at none
  · intro none
    cases places with
    | nil => rfl
    | cons p places =>
        rw [reaches.first] at none
        cases none

theorem Reaches.length_le (reaches : Reaches m client va size places) : places.length ≤ size := by
  rcases reaches.ends with all | ⟨some, -⟩
  · exact Nat.le_of_eq all
  · exact Nat.le_of_lt some

theorem writeBytes_places (reaches : Reaches m client va bytes.length places)
    (distinct : places.Nodup) :
    ∃ m', writeBytes m client va bytes = (m', decide (places.length = bytes.length)) ∧
      (∀ a ∉ places, m' a = m a) ∧ places.map m' = bytes.take places.length := by
  induction bytes generalizing m va places with
  | nil =>
      have empty : places = [] := List.eq_nil_of_length_eq_zero (Nat.le_zero.mp reaches.length_le)
      rw [empty]
      exact ⟨m, rfl, fun a outside => rfl, rfl⟩
  | cons c rest ih =>
      cases places with
      | nil =>
          have none := reaches.nil_iff.mp rfl
          refine ⟨m, ?_, fun a outside => rfl, rfl⟩
          rw [writeBytes, none]
          rfl
      | cons p places =>
          obtain ⟨other, distinct⟩ := List.nodup_cons.mp distinct
          obtain ⟨m', written, outside, inside⟩ := ih (reaches.next (c := c)) distinct
          have here : m' p = c := by
            rw [outside p other, Function.update_self]
          refine ⟨m', ?_, ?_, ?_⟩
          · rw [writeBytes, reaches.first]
            dsimp only
            rw [written]
            simp
          · intro a away
            rw [List.mem_cons, not_or] at away
            rw [outside a away.2, Function.update_of_ne away.1]
          · rw [List.map_cons, here, inside]
            rfl

theorem readBytes_places (reaches : Reaches m client va size places) :
    readBytes m client va size = (places.map m, decide (places.length = size)) := by
  induction size generalizing va places with
  | zero =>
      have empty : places = [] := List.eq_nil_of_length_eq_zero (Nat.le_zero.mp reaches.length_le)
      rw [empty]
      rfl
  | succ size ih =>
      cases places with
      | nil =>
          have none := reaches.nil_iff.mp rfl
          rw [readBytes, none]
          rfl
      | cons p places =>
          have later : Reaches m client (va + 1) size places := by
            have same : Function.update m p (m p) = m := Function.update_eq_self p m
            have next := reaches.next (c := m p)
            rwa [same] at next
          rw [readBytes, reaches.first]
          dsimp only
          rw [ih later]
          simp

theorem writeBytes_stretch (sz : Nat) (reaches : Reaches m client va bytes.length places)
    (stretch : ∀ j < sz, clientAddress m client (va + .ofNat 32 j) = some (pa + .ofNat 32 j))
    (inside : sz ≤ bytes.length) (room : bytes.length < 2 ^ 32) :
    writeBytes m client va bytes =
        writeBytes (m.overwrite pa (bytes.take sz)) client (va + .ofNat 32 sz) (bytes.drop sz) ∧
      Reaches (m.overwrite pa (bytes.take sz)) client (va + .ofNat 32 sz) (bytes.length - sz)
        (places.drop sz) := by
  induction sz generalizing m va pa bytes places with
  | zero =>
      rw [BitVec.add_zero]
      exact ⟨rfl, reaches⟩
  | succ sz ih =>
      cases bytes with
      | nil => exact absurd inside (Nat.not_succ_le_zero sz)
      | cons c rest =>
          have first := stretch 0 (Nat.succ_pos sz)
          rw [BitVec.add_zero, BitVec.add_zero] at first
          cases places with
          | nil =>
              rw [reaches.nil_iff.mp rfl] at first
              cases first
          | cons p places =>
              have same : p = pa := by
                rw [reaches.first] at first
                exact Option.some.inj first
              subst same
              have later : ∀ j < sz, clientAddress (Function.update m p c) client
                  (va + 1 + .ofNat 32 j) = some (p + 1 + .ofNat 32 j) := by
                intro j less
                have steady := reaches.steady (j + 1) (by rw [List.length_cons] at inside ⊢; omega) p
                  List.mem_cons_self
                rw [← place_succ, ← place_succ, address_update steady]
                exact stretch (j + 1) (Nat.succ_lt_succ less)
              have short : rest.length < 2 ^ 32 := Nat.lt_of_succ_lt room
              obtain ⟨written, next⟩ := ih (reaches.next (c := c)) later
                (Nat.le_of_succ_le_succ inside) short
              have front : (rest.take sz).length < 2 ^ 32 := by
                rw [List.length_take]
                omega
              rw [List.take_succ_cons, Memory.overwrite_cons front, place_succ, List.drop_succ_cons,
                List.drop_succ_cons, List.length_cons, Nat.add_sub_add_right]
              refine ⟨?_, next⟩
              rw [writeBytes, first]
              exact written

theorem gdbCopyout_eq (reaches : Reaches m client va bytes.length places)
    (room : bytes.length < 2 ^ 32) :
    gdbCopyout m client bytes va = writeBytes m client va bytes := by
  induction size : bytes.length using Nat.strong_induction_on generalizing m va bytes places with
  | _ k ih =>
      rw [gdbCopyout]
      split
      · rename_i nil
        rw [nil]
        rfl
      · rename_i nonempty
        have positive := List.length_pos_of_ne_nil nonempty
        split
        · rename_i none
          obtain ⟨c, rest, rfl⟩ := List.exists_cons_of_ne_nil nonempty
          rw [writeBytes, clientAddress, none]
          rfl
        · rename_i pa len found
          have bytes_left := lookup_positive found
          have stretch : ∀ j < min len.toNat bytes.length,
              clientAddress m client (va + .ofNat 32 j) = some (pa + .ofNat 32 j) := by
            intro j inside
            exact clientAddress_within found (Nat.lt_of_lt_of_le inside (Nat.min_le_left _ _))
          obtain ⟨written, next⟩ :=
            writeBytes_stretch _ reaches stretch (Nat.min_le_right _ _) room
          rw [← List.length_drop] at next
          rw [written]
          dsimp only
          apply ih _ _ next _ rfl
          · rw [List.length_drop]
            omega
          · rw [List.length_drop]
            omega

theorem Reaches.kept (reaches : Reaches m client va size places)
    (outside : ∀ a ∉ places, m' a = m a) : Reaches m' client va size places := by
  have entries (i : Nat) (inside : i < size) (b : Word)
      (walks : Walks m client (va + .ofNat 32 i) b) : m' b = m b := by
    apply outside
    intro member
    exact reaches.steady i inside b member walks
  have still (i : Nat) (inside : i < size) : clientAddress m' client (va + .ofNat 32 i) =
      clientAddress m client (va + .ofNat 32 i) :=
    congrArg (Option.map Prod.fst) (lookup_congr (entries i inside))
  refine ⟨?_, ?_, ?_⟩
  · intro i p found
    have inside : i < places.length := (List.getElem?_eq_some_iff.mp found).1
    rw [still i (Nat.lt_of_lt_of_le inside reaches.length_le)]
    exact reaches.mapped i p found
  · rcases reaches.ends with all | ⟨some, none⟩
    · exact .inl all
    · refine .inr ⟨some, ?_⟩
      rw [still places.length some]
      exact none
  · intro i inside p member walks
    have upper := read_kept fun b near => entries i inside b ⟨walks.1, .inl near⟩
    simp only [Walks] at walks
    rw [upper] at walks
    exact reaches.steady i inside p member walks

/-- What is copied to the client is read back from it, as far as its pages are mapped, and nothing
else has changed. Both copies fail exactly when a page is not mapped. -/
theorem gdbCopyout_gdbCopyin (reaches : Reaches m client va bytes.length places)
    (distinct : places.Nodup) (room : bytes.length < 2 ^ 32) :
    ∃ m', gdbCopyout m client bytes va = (m', decide (places.length = bytes.length)) ∧
      (∀ a ∉ places, m' a = m a) ∧
      gdbCopyin m' client va bytes.length =
        (bytes.take places.length, decide (places.length = bytes.length)) := by
  obtain ⟨m', written, outside, inside⟩ := writeBytes_places reaches distinct
  refine ⟨m', ?_, outside, ?_⟩
  · rw [gdbCopyout_eq reaches room, written]
  · rw [gdbCopyin_eq, readBytes_places (reaches.kept outside), inside]

theorem reaches_flat (flat : client.cr0 &&& 0x80000000#32 = 0) :
    Reaches m client va size (consecutive va size) := by
  refine ⟨?_, .inl consecutive_length, fun i inside p member walks => walks.1 flat⟩
  intro i p found
  obtain ⟨inside, rfl⟩ := consecutive_get found
  simp only [clientAddress, physAddrLookup, if_pos flat]
  rfl

theorem gdbCopyout_gdbCopyin_flat : ∃ m', gdbCopyout (fun _ => 0) ⟨0, 0⟩ [7, 8] 0xb8000 =
      (m', decide ((consecutive 0xb8000 2).length = 2)) ∧
    (∀ a ∉ consecutive 0xb8000 2, m' a = 0) ∧
    gdbCopyin m' ⟨0, 0⟩ 0xb8000 2 =
      ([(7 : BitVec 8), 8].take (consecutive 0xb8000 2).length,
        decide ((consecutive 0xb8000 2).length = 2)) :=
  gdbCopyout_gdbCopyin (reaches_flat rfl) (consecutive_distinct (by decide)) (by decide)

theorem directory_index_bits : (va >>> 22) &&& 0x3ff#32 = va >>> 22 := by
  have bound := va.isLt
  have mask : (0x3ff#32).toNat = 2 ^ 10 - 1 := rfl
  apply BitVec.eq_of_toNat_eq
  rw [BitVec.toNat_and, mask, Nat.and_two_pow_sub_one_eq_mod, BitVec.toNat_ushiftRight,
    Nat.shiftRight_eq_div_pow]
  omega

theorem bit_clear (i : Nat) (below : i < 32) :
    a &&& BitVec.twoPow 32 i = 0 ↔ ¬ a.getLsbD i = true := by
  rw [BitVec.and_twoPow]
  split
  · rename_i set
    apply iff_of_false _ (not_not.mpr set)
    intro zero
    have bit := BitVec.getLsbD_twoPow (w := 32) i i
    rw [zero, decide_eq_true below, decide_eq_true rfl] at bit
    exact absurd bit (by simp)
  · rename_i clear
    exact iff_of_true rfl clear

theorem present_iff : a &&& 0x1#32 = 0 ↔ ¬ a.getLsbD 0 = true := bit_clear 0 (by decide)

theorem frame_plus_offset : (a &&& 0xfffff000#32) + (va &&& 0xfff#32) =
    (a &&& 0xfffff000#32) ||| (va &&& 0xfff#32) := by
  apply BitVec.add_eq_or_of_and_eq_zero
  have apart : 0xfffff000#32 &&& 0xfff#32 = 0#32 := rfl
  rw [BitVec.and_assoc, BitVec.and_comm va, ← BitVec.and_assoc (0xfffff000#32), apart,
    BitVec.zero_and, BitVec.and_zero]

theorem clientAddress_translate (paged : client.cr0 &&& 0x80000000#32 ≠ 0)
    (small : m.read ((client.cr3 &&& 0xfffff000#32) + (4 : Word) * (va >>> 22)) &&& 0x80#32 = 0) :
    clientAddress m client va =
      (m.translate (client.cr3 &&& 0xfffff000#32) va).map X86.Translation.physical := by
  simp only [clientAddress, physAddrLookup, Memory.translate]
  rw [directory_index_bits, if_neg paged, if_pos small]
  by_cases upper : (m.read ((client.cr3 &&& 0xfffff000#32) + (4 : Word) * (va >>> 22))).getLsbD 0
  · rw [if_neg fun none => present_iff.mp none upper, if_pos upper]
    split
    · rename_i none
      rw [if_neg (present_iff.mp none)]
      rfl
    · rename_i present
      rw [if_pos (not_not.mp fun absent => present (present_iff.mpr absent)), frame_plus_offset]
      rfl
  · rw [if_pos (present_iff.mpr upper), if_neg upper]
    rfl

end IntelX86Kernel
