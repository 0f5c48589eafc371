import Vpsim.Core.AddrSpace
import Vpsim.Lib.ByteMemory

/-!
# Loading an ELF file

`load_elf_file` goes through the sections of a file in their order and copies those to the memory that its checks
accept. The checks compare sums of 64 bits.
-/

namespace Vpsim.Memory

open Vpsim.Core.AddrSpace Vpsim.Lib

/-- What the loader reads of the header of a section, and whether the section has data. -/
structure SectionHeader where
  address : ℕ
  size : ℕ
  flags : ℕ
  hasData : Bool

/-- A section of an ELF file. -/
structure Section where
  header : SectionHeader
  data : ℕ → BitVec 8

/-- `SHF_ALLOC`. -/
def shfAlloc : ℕ := 2

/-- The section has data for the memory. -/
def SectionHeader.Loadable (h : SectionHeader) : Prop := h.flags &&& shfAlloc ≠ 0 ∧ h.hasData = true

instance (h : SectionHeader) : Decidable h.Loadable := inferInstanceAs (Decidable (_ ∧ _))

/-- A section passes the checks of `load_elf_file`. -/
def SectionHeader.Accepted (base size : ℕ) (h : SectionHeader) : Prop :=
  ¬ h.address < base ∧ ¬ (base + size) % addrCount ≤ (h.address + h.size + addrCount - 1) % addrCount ∧ h.Loadable

instance (base size : ℕ) (h : SectionHeader) : Decidable (h.Accepted base size) :=
  inferInstanceAs (Decidable (_ ∧ _))

/-- `pos`: the place of a section in the memory. -/
def SectionHeader.pos (base : ℕ) (h : SectionHeader) : ℕ := (h.address + addrCount - base) % addrCount

/-- What `memcpy` stores for a section. -/
def Section.block (base : ℕ) (s : Section) : Block where
  addr := s.header.pos base
  len := s.header.size
  byte := s.data

/-- The copies that `load_elf_file` makes. -/
def copies (base size : ℕ) (sections : List Section) : List Block :=
  (sections.filter (·.header.Accepted base size)).map (Section.block base)

/-- `load_elf_file`, for the sections of the file if it is found and can be read. -/
def loadElfFile (base size : ℕ) (file : Option (List Section)) (mem : ByteMemory) : Except ℕ ByteMemory :=
  match file with
  | none => throw 0
  | some sections => return storeAll mem (copies base size sections)

/-- The section lies wholly in the `size` bytes from `base` on. -/
def SectionHeader.Within (base size : ℕ) (h : SectionHeader) : Prop :=
  base ≤ h.address ∧ h.address + h.size ≤ base + size

instance (base size : ℕ) (h : SectionHeader) : Decidable (h.Within base size) := inferInstanceAs (Decidable (_ ∧ _))

/-- A loadable section that lies wholly in the range has a byte for place `i`. -/
def SectionHeader.Provides (base size i : ℕ) (h : SectionHeader) : Prop :=
  h.Loadable ∧ h.Within base size ∧ h.address ≤ base + i ∧ base + i < h.address + h.size

instance (base size i : ℕ) (h : SectionHeader) : Decidable (h.Provides base size i) :=
  inferInstanceAs (Decidable (_ ∧ _))

/-- The byte that belongs at a place of the memory. -/
def expectedByte (base size : ℕ) (sections : List Section) (mem : ByteMemory) (i : ℕ) : BitVec 8 :=
  ((sections.filter (·.header.Provides base size i)).getLast?).elim (mem i) fun s =>
    s.data (base + i - s.header.address)

/-- The sections are loaded: no byte outside the range is written, and each inside is as it belongs. -/
def Loaded (base size : ℕ) (sections : List Section) (mem : ByteMemory) : Prop :=
  (∀ b ∈ copies base size sections, ∀ i < b.len, (b.addr + i) % addrCount < size) ∧
    ∃ mem', loadElfFile base size (some sections) mem = .ok mem' ∧
      ∀ i < size, mem' i = expectedByte base size sections mem i

/-- The last of the loadable sections in the range that have a byte for a place. -/
def lastProvider (base size : ℕ) (headers : List SectionHeader) (i : ℕ) : Option SectionHeader :=
  (headers.filter (·.Provides base size i)).getLast?

/-- Where the range ends below `2 ^ 64`, no loadable section starts in or behind it and ends in it behind `2 ^ 64`.
Where it does not, the last section that has a byte for a place ends behind `2 ^ 64`. -/
def LoadsRight (base size : ℕ) (headers : List SectionHeader) : Prop :=
  if base + size < addrCount then
    ∀ h ∈ headers, h.Loadable → base ≤ h.address →
      addrCount < h.address + h.size → addrCount + base + size < h.address + h.size
  else ∀ i < size, ∀ h ∈ lastProvider base size headers i, addrCount < h.address + h.size

/-! ## The checks -/

/-- Addresses and sizes have 64 bits. -/
def SectionHeader.Fits (h : SectionHeader) : Prop := h.address < addrCount ∧ h.size < addrCount

variable {base size i : ℕ} {h : SectionHeader} {headers : List SectionHeader} {s : Section} {sections : List Section}
  {mem : ByteMemory}

/-- Where the range ends below `2 ^ 64`, the checks also accept sections that end in it behind `2 ^ 64`. -/
theorem accepted_iff_of_lt (hsum : base + size < addrCount) (hfits : h.Fits) (hpos : 0 < h.size) :
    h.Accepted base size ↔ h.Loadable ∧ base ≤ h.address ∧
      (h.address + h.size ≤ base + size ∨
        addrCount < h.address + h.size ∧ h.address + h.size ≤ addrCount + base + size) := by
  obtain ⟨haddress, hsize⟩ := hfits
  unfold SectionHeader.Accepted
  have hcheck : (¬ h.address < base ∧ ¬ (base + size) % addrCount ≤ (h.address + h.size + addrCount - 1) % addrCount) ↔
      base ≤ h.address ∧ (h.address + h.size ≤ base + size ∨
        addrCount < h.address + h.size ∧ h.address + h.size ≤ addrCount + base + size) := by
    unfold addrCount at *
    omega
  rw [← and_assoc, hcheck, and_comm]

/-- Where it does not, the checks accept the sections in it that end behind `2 ^ 64` only. -/
theorem accepted_iff_of_le (hsum : addrCount ≤ base + size) (hbase : base < addrCount) (hsize : size < addrCount)
    (hfits : h.Fits) (hpos : 0 < h.size) :
    h.Accepted base size ↔ h.Loadable ∧ h.Within base size ∧ addrCount < h.address + h.size := by
  obtain ⟨haddress, hlength⟩ := hfits
  unfold SectionHeader.Accepted SectionHeader.Within
  have hcheck : (¬ h.address < base ∧ ¬ (base + size) % addrCount ≤ (h.address + h.size + addrCount - 1) % addrCount) ↔
      (base ≤ h.address ∧ h.address + h.size ≤ base + size) ∧ addrCount < h.address + h.size := by
    unfold addrCount at *
    omega
  rw [← and_assoc, hcheck, and_comm]

/-- An accepted section has a byte for place `i`. -/
def SectionHeader.Stores (base size i : ℕ) (h : SectionHeader) : Prop :=
  h.Accepted base size ∧ h.address ≤ base + i ∧ base + i < h.address + h.size

instance (base size i : ℕ) (h : SectionHeader) : Decidable (h.Stores base size i) := inferInstanceAs (Decidable (_ ∧ _))

/-- An accepted section that does not wrap goes to its distance from the base. -/
theorem pos_of_accepted (haccepted : h.Accepted base size) (hfits : h.Fits) : h.pos base = h.address - base := by
  unfold SectionHeader.pos
  rw [Nat.sub_add_comm (Nat.le_of_not_lt haccepted.1), Nat.add_mod_right,
    Nat.mod_eq_of_lt (Nat.lt_of_le_of_lt (Nat.sub_le _ _) hfits.1)]

/-- The block of a section covers a place when the section is accepted and has a byte for it. -/
theorem covers_block_iff (haccepted : s.header.Accepted base size) (hfits : s.header.Fits) :
    (s.block base).Covers i ↔ s.header.address ≤ base + i ∧ base + i < s.header.address + s.header.size := by
  have hbase := Nat.le_of_not_lt haccepted.1
  have hpos := pos_of_accepted haccepted hfits
  change s.header.pos base ≤ i ∧ i < s.header.pos base + s.header.size ↔ _
  rw [hpos]
  omega

/-- The copies that have a byte for a place. -/
theorem filter_copies (hfits : ∀ s ∈ sections, s.header.Fits) (i : ℕ) :
    (copies base size sections).filter (·.Covers i) =
      (sections.filter (·.header.Stores base size i)).map (Section.block base) := by
  unfold copies
  rw [List.filter_map, List.filter_filter]
  congr 1
  apply List.filter_congr
  intro s hs
  rw [Function.comp_apply, Bool.eq_iff_iff, Bool.and_eq_true, decide_eq_true_eq, decide_eq_true_eq, decide_eq_true_eq,
    and_comm]
  exact and_congr_right fun haccepted => covers_block_iff haccepted (hfits s hs)

/-- The memory after loading: the last accepted section that has a byte for a place decides. -/
theorem storeAll_copies (hfits : ∀ s ∈ sections, s.header.Fits) (i : ℕ) :
    storeAll mem (copies base size sections) i =
      ((sections.filter (·.header.Stores base size i)).getLast?).elim (mem i) fun s =>
        s.data (base + i - s.header.address) := by
  rw [storeAll_apply, filter_copies hfits, List.getLast?_map]
  cases hlast : (sections.filter (·.header.Stores base size i)).getLast? with
  | none => rfl
  | some s =>
    obtain ⟨hs, hstores⟩ := List.mem_filter.1 (List.mem_of_getLast? hlast)
    have haccepted := (of_decide_eq_true hstores).1
    have hbase := Nat.le_of_not_lt haccepted.1
    change s.data (i - s.header.pos base) = s.data (base + i - s.header.address)
    rw [pos_of_accepted haccepted (hfits s hs)]
    congr 1
    omega

/-! ## Loading -/

/-- A section that may not be accepted wrongly is accepted where it lies in the range. -/
theorem stores_iff_provides (hsum : base + size < addrCount) (hfits : h.Fits)
    (hright : h.Loadable → base ≤ h.address →
      addrCount < h.address + h.size → addrCount + base + size < h.address + h.size) :
    h.Stores base size i ↔ h.Provides base size i := by
  unfold SectionHeader.Stores SectionHeader.Provides SectionHeader.Within
  constructor
  · intro ⟨haccepted, hfirst, hlast⟩
    obtain ⟨hloadable, hbase, hend⟩ := (accepted_iff_of_lt hsum hfits (by omega)).1 haccepted
    have hbehind := hright hloadable hbase
    exact ⟨hloadable, ⟨hbase, by omega⟩, hfirst, hlast⟩
  · intro ⟨hloadable, ⟨hbase, hend⟩, hfirst, hlast⟩
    exact ⟨(accepted_iff_of_lt hsum hfits (by omega)).2 ⟨hloadable, hbase, .inl hend⟩, hfirst, hlast⟩

/-- In a range that ends at or behind `2 ^ 64`, only the sections that end behind are stored. -/
theorem stores_iff_behind (hsum : addrCount ≤ base + size) (hbase : base < addrCount) (hsize : size < addrCount)
    (hfits : h.Fits) :
    h.Stores base size i ↔ addrCount < h.address + h.size ∧ h.Provides base size i := by
  unfold SectionHeader.Stores SectionHeader.Provides
  constructor
  · intro ⟨haccepted, hfirst, hlast⟩
    obtain ⟨hloadable, hwithin, hbehind⟩ := (accepted_iff_of_le hsum hbase hsize hfits (by omega)).1 haccepted
    exact ⟨hbehind, hloadable, hwithin, hfirst, hlast⟩
  · intro ⟨hbehind, hloadable, hwithin, hfirst, hlast⟩
    exact ⟨(accepted_iff_of_le hsum hbase hsize hfits (by omega)).2 ⟨hloadable, hwithin, hbehind⟩, hfirst, hlast⟩

/-- The copies stay in the range when each accepted section does. -/
theorem copies_within (hfits : ∀ s ∈ sections, s.header.Fits)
    (hwithin : ∀ s ∈ sections, s.header.Accepted base size → 0 < s.header.size → s.header.Within base size) :
    ∀ b ∈ copies base size sections, ∀ i < b.len, (b.addr + i) % addrCount < size := by
  intro b hb i hi
  obtain ⟨s, hs, rfl⟩ := List.mem_map.1 hb
  obtain ⟨hmem, haccepted⟩ := List.mem_filter.1 hs
  rw [decide_eq_true_eq] at haccepted
  have hlen : i < s.header.size := hi
  obtain ⟨hbase, hend⟩ := hwithin s hmem haccepted (by omega)
  apply (Nat.mod_le _ _).trans_lt
  change s.header.pos base + i < size
  rw [pos_of_accepted haccepted (hfits s hmem)]
  omega

/-- The last element is also the last of those that have a property if it has the property. -/
theorem getLast?_filter {α : Type} {p : α → Bool} {l : List α} (h : ∀ a ∈ l.getLast?, p a = true) :
    (l.filter p).getLast? = l.getLast? := by
  cases List.eq_nil_or_concat l with
  | inl hnil => rw [hnil, List.filter_nil]
  | inr hconcat =>
    obtain ⟨init, a, rfl⟩ := hconcat
    rw [List.concat_eq_append, List.getLast?_concat] at h ⊢
    rw [List.filter_append, List.filter_cons_of_pos (h a rfl), List.filter_nil, List.getLast?_concat]

/-- The last section that has a byte for a place can be found by its header. -/
theorem lastProvider_map :
    lastProvider base size (sections.map Section.header) i =
      ((sections.filter (·.header.Provides base size i)).getLast?).map Section.header := by
  unfold lastProvider
  rw [List.filter_map, List.getLast?_map]
  rfl

/-- The sections are loaded where the headers allow it. -/
theorem loaded_of_loadsRight (hbase : base < addrCount) (hsize : size < addrCount)
    (hfits : ∀ s ∈ sections, s.header.Fits) (hright : LoadsRight base size (sections.map Section.header)) :
    Loaded base size sections mem := by
  unfold LoadsRight at hright
  by_cases hsum : base + size < addrCount
  · rw [if_pos hsum] at hright
    have hsection : ∀ s ∈ sections, s.header.Loadable → base ≤ s.header.address →
        addrCount < s.header.address + s.header.size → addrCount + base + size < s.header.address + s.header.size :=
      fun s hs => hright s.header (List.mem_map_of_mem hs)
    refine ⟨copies_within hfits ?_, _, rfl, ?_⟩
    · intro s hs haccepted hpos
      obtain ⟨hloadable, hstart, hend⟩ := (accepted_iff_of_lt hsum (hfits s hs) hpos).1 haccepted
      have hbehind := hsection s hs hloadable hstart
      exact ⟨hstart, by omega⟩
    · intro i hi
      rw [storeAll_copies hfits]
      unfold expectedByte
      have hfilter : sections.filter (·.header.Stores base size i) = sections.filter (·.header.Provides base size i) := by
        apply List.filter_congr
        intro s hs
        exact decide_eq_decide.2 (stores_iff_provides hsum (hfits s hs) (hsection s hs))
      rw [hfilter]
  · rw [if_neg hsum] at hright
    have hsum := Nat.le_of_not_lt hsum
    refine ⟨copies_within hfits ?_, _, rfl, ?_⟩
    · intro s hs haccepted hpos
      exact ((accepted_iff_of_le hsum hbase hsize (hfits s hs) hpos).1 haccepted).2.1
    · intro i hi
      rw [storeAll_copies hfits]
      unfold expectedByte
      have hfilter : sections.filter (·.header.Stores base size i) =
          (sections.filter (·.header.Provides base size i)).filter
            fun s => addrCount < s.header.address + s.header.size := by
        rw [List.filter_filter]
        apply List.filter_congr
        intro s hs
        rw [Bool.eq_iff_iff, Bool.and_eq_true, decide_eq_true_eq, decide_eq_true_eq, decide_eq_true_eq]
        exact stores_iff_behind hsum hbase hsize (hfits s hs)
      rw [hfilter, getLast?_filter]
      intro s hs
      rw [decide_eq_true_eq]
      apply hright i hi
      rw [lastProvider_map, Option.mem_def.1 hs]
      rfl

/-- A section that ends behind `2 ^ 64` has a byte for a place behind the range. -/
theorem exists_outside (hsum : base + size < addrCount) (hstart : base ≤ h.address) (haddress : h.address < addrCount)
    (hbehind : addrCount < h.address + h.size) :
    ∃ i < h.size, size ≤ (h.address - base + i) % addrCount := by
  by_cases hfirst : h.address - base < size
  · refine ⟨size - (h.address - base), by omega, ?_⟩
    rw [Nat.add_sub_cancel' hfirst.le, Nat.mod_eq_of_lt (by omega)]
  · refine ⟨0, by omega, ?_⟩
    rw [Nat.add_zero, Nat.mod_eq_of_lt (by omega)]
    exact Nat.le_of_not_lt hfirst

/-- A section whose bytes tell whether it ends behind `2 ^ 64`. -/
def marked (h : SectionHeader) : Section := ⟨h, fun _ => if addrCount < h.address + h.size then 0 else 1⟩

theorem eq_marked (hs : s ∈ headers.map marked) : s = marked s.header := by
  obtain ⟨h, -, rfl⟩ := List.mem_map.1 hs
  rfl

theorem map_header_marked : (headers.map marked).map Section.header = headers := by
  rw [List.map_map]
  exact List.map_id headers

/-- The sections are not all loaded where the headers do not allow it. -/
theorem loadsRight_of_loaded (hbase : base < addrCount) (hsize : size < addrCount)
    (hfits : ∀ h ∈ headers, h.Fits) (hloaded : Loaded base size (headers.map marked) fun _ => 0) :
    LoadsRight base size headers := by
  obtain ⟨hinside, mem', hload, hbytes⟩ := hloaded
  cases hload
  have hfits' : ∀ s ∈ headers.map marked, s.header.Fits := by
    intro s hs
    obtain ⟨h, hh, rfl⟩ := List.mem_map.1 hs
    exact hfits h hh
  unfold LoadsRight
  by_cases hsum : base + size < addrCount
  · rw [if_pos hsum]
    intro h hh hloadable hstart hbehind
    by_contra hend
    have haddress := (hfits h hh).1
    have haccepted : h.Accepted base size :=
      (accepted_iff_of_lt hsum (hfits h hh) (by omega)).2 ⟨hloadable, hstart, .inr ⟨hbehind, Nat.le_of_not_lt hend⟩⟩
    have hcopy : (marked h).block base ∈ copies base size (headers.map marked) :=
      List.mem_map_of_mem (List.mem_filter.2 ⟨List.mem_map_of_mem hh, decide_eq_true haccepted⟩)
    obtain ⟨i, hi, hout⟩ := exists_outside hsum hstart haddress hbehind
    have hplace : (h.pos base + i) % addrCount < size := hinside _ hcopy i hi
    rw [pos_of_accepted haccepted (hfits h hh)] at hplace
    omega
  · rw [if_neg hsum]
    have hsum := Nat.le_of_not_lt hsum
    intro i hi h hlast
    by_contra hbehind
    have hzero : storeAll (fun _ => 0) (copies base size (headers.map marked)) i = 0 := by
      rw [storeAll_copies hfits']
      cases hstored : ((headers.map marked).filter (·.header.Stores base size i)).getLast? with
      | none => rfl
      | some s =>
        obtain ⟨hs, hstores⟩ := List.mem_filter.1 (List.mem_of_getLast? hstored)
        rw [decide_eq_true_eq, stores_iff_behind hsum hbase hsize (hfits' s hs)] at hstores
        rw [eq_marked hs]
        exact if_pos hstores.1
    have hone : expectedByte base size (headers.map marked) (fun _ => 0) i = 1 := by
      unfold expectedByte
      have hheaders : (headers.map marked).map Section.header = headers := map_header_marked
      rw [← hheaders, lastProvider_map] at hlast
      obtain ⟨s, hprovided, rfl⟩ := Option.map_eq_some_iff.1 (Option.mem_def.1 hlast)
      have hs := (List.mem_filter.1 (List.mem_of_getLast? hprovided)).1
      rw [hprovided, eq_marked hs]
      exact if_neg hbehind
    have hbyte := hbytes i hi
    rw [hzero, hone] at hbyte
    exact absurd hbyte (by decide)

/-- Sections with these headers are loaded, whatever their data and the memory, exactly when the headers allow it. -/
theorem loaded_iff (hbase : base < addrCount) (hsize : size < addrCount)
    (hfits : ∀ h ∈ headers, h.address < addrCount ∧ h.size < addrCount) :
    (∀ sections mem, sections.map Section.header = headers → Loaded base size sections mem) ↔
      LoadsRight base size headers := by
  constructor
  · intro hloaded
    exact loadsRight_of_loaded hbase hsize hfits (hloaded _ _ map_header_marked)
  · intro hright sections mem hheaders
    subst hheaders
    exact loaded_of_loadsRight hbase hsize (fun s hs => hfits s.header (List.mem_map_of_mem hs)) hright

/-- Of two sections that overlap, in a range that ends below `2 ^ 64`, the last one is in the memory. -/
theorem loaded_overlapping :
    Loaded 0x1000 16 [⟨⟨0x1000, 8, 2, true⟩, fun _ => 1⟩, ⟨⟨0x1004, 8, 2, true⟩, fun _ => 2⟩] fun _ => 0 := by
  have hfits : ∀ h ∈ [(⟨0x1000, 8, 2, true⟩ : SectionHeader), ⟨0x1004, 8, 2, true⟩],
      h.address < addrCount ∧ h.size < addrCount := by decide
  apply (loaded_iff (by decide) (by decide) hfits).2
  · unfold LoadsRight
    rw [if_pos (by decide)]
    decide
  · rfl

/-- A section at the end of the address space. -/
def endSection : Section := ⟨⟨0xfffffffffffffff8, 16, 2, true⟩, fun _ => 1⟩

/-- A section that ends behind `2 ^ 64` is copied far from a range of 16 bytes. -/
theorem not_loaded_wrapped : ¬ Loaded 0x1000 16 [endSection] fun _ => 0 := by
  intro ⟨hinside, _⟩
  have haccepted : endSection.header.Accepted 0x1000 16 := by decide
  have hplace := hinside (endSection.block 0x1000)
    (List.mem_map_of_mem (List.mem_filter.2 ⟨List.mem_singleton.2 rfl, decide_eq_true haccepted⟩)) 0 (by decide)
  exact absurd hplace (by decide)

end Vpsim.Memory
