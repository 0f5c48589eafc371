import Vpsim.Peripherals.GicFootprint

/-!
# Banked list registers

Each CPU writes the list registers of its own bank, but `getVIntEntry` reads the bank of CPU 0
whatever CPU it works for. The log tells which bytes a CPU has written and which entries were
looked up for it; a lookup for CPU 0 finds what CPU 0 wrote, a lookup for another CPU does not.
-/

namespace Vpsim.Peripherals

open Vpsim.Lib

/-- A byte of the list registers that `getVIntEntry` reads. -/
def GicConfig.EntryByte (config : GicConfig) (a : ℕ) : Prop := InBlock (config.vDistBase + 0x100) 0x100 a

namespace Gic

variable {g g' : Gic} {config : GicConfig} {ids : List ℕ}

/-! ## What a CPU has written -/

/-- Byte `j` of the bank of a CPU as the CPU itself last wrote it, with the `State` of an entry
cleared when the CPU ends its interrupt. -/
def ownByte (cpu j : ℕ) : List Event → Option (BitVec 8)
  | .bankWrite id offset value :: older =>
    if id = cpu ∧ offset ≤ j ∧ j < offset + 4 then some (wordByte value (j - offset)) else ownByte cpu j older
  | .retired id k :: older =>
    if id = cpu ∧ j = 0x100 + 4 * k + 3 then (ownByte cpu j older).map (· &&& 0xCF#8) else ownByte cpu j older
  | _ :: older => ownByte cpu j older
  | [] => none

/-- A lookup finds what the CPU it is made for has written: every byte of the entry that the CPU
has written has the value it wrote. -/
def FindsOwn (cpu : ℕ) (k : Fin 64) (entry : Word) (older : List Event) : Prop :=
  ∀ i < 4, ∀ b, ownByte cpu (0x100 + 4 * k + i) older = some b → wordByte entry i = b

/-- Every lookup so far found what the CPU it was made for had written by then. -/
def LooksUpOwn (log : List Event) : Prop :=
  ∀ newer cpu k entry older, log = newer ++ .lookup cpu k entry :: older → FindsOwn cpu k entry older

theorem looksUpOwn_nil : LooksUpOwn [] := by
  intro newer cpu k entry older h
  exact absurd h.symm (List.append_ne_nil_of_right_ne_nil _ (List.cons_ne_nil _ _))

/-- Another event keeps the lookups right, if it is no lookup or finds what its CPU wrote. -/
theorem LooksUpOwn.cons {log : List Event} {e : Event} (h : LooksUpOwn log)
    (he : ∀ cpu k entry, e = .lookup cpu k entry → FindsOwn cpu k entry log) : LooksUpOwn (e :: log) := by
  intro newer cpu k entry older heq
  cases newer with
  | nil =>
    obtain ⟨rfl, rfl⟩ := List.cons.inj heq
    exact he cpu k entry rfl
  | cons first newer =>
    obtain ⟨rfl, hlog⟩ := List.cons.inj heq
    exact h newer cpu k entry older hlog

/-! ## The invariant -/

/-- Only CPU 0 has list registers in its queue, the bytes it has written are in memory, and every
lookup so far found what it should. -/
structure Banked (cfg : GicConfig) (ids : List ℕ) (g : Gic) : Prop where
  config : g.config = cfg
  cpus : g.cpus = ids
  others : ∀ id ≠ 0, g.vCpuQueue id = []
  mem : ∀ j, 0x100 ≤ j → j < 0x200 → ∀ b, ownByte 0 j g.log = some b → g.mem (cfg.vDistBase + j) = b
  lookups : LooksUpOwn g.log

/-- The invariant is kept. -/
def StaysBanked (config : GicConfig) (ids : List ℕ) (g g' : Gic) : Prop :=
  Banked config ids g → Banked config ids g'

instance : IsPreorder Gic (StaysBanked config ids) where
  refl _ h := h
  trans _ _ _ h h' hb := h' (h hb)

/-- A change outside the entries, the virtual queues and the log. -/
theorem Banked.of_frame (h : Banked config ids g) (hconfig : g'.config = g.config) (hcpus : g'.cpus = g.cpus)
    (hqueue : g'.vCpuQueue = g.vCpuQueue) (hlog : g'.log = g.log)
    (hmem : ∀ a, config.EntryByte a → g'.mem a = g.mem a) : Banked config ids g' := by
  refine ⟨hconfig.trans h.config, hcpus.trans h.cpus, ?_, ?_, ?_⟩
  · rw [hqueue]
    exact h.others
  · intro j hlow hhigh b hb
    rw [hlog] at hb
    rw [hmem _ (by unfold GicConfig.EntryByte InBlock; omega)]
    exact h.mem j hlow hhigh b hb
  · rw [hlog]
    exact h.lookups

/-- An event that is neither a write nor an end, and a lookup only of a queued list register with
the bytes in memory. -/
def Harmless (g : Gic) : Event → Prop
  | .lookup cpu k entry => k ∈ g.vCpuQueue cpu ∧ ∀ i < 4, wordByte entry i = g.mem (g.config.vDistBase + (0x100 + 4 * k) + i)
  | .bankWrite _ _ _ => False
  | .retired _ _ => False
  | _ => True

/-- Harmless events change no byte a CPU has written. -/
theorem Harmless.ownByte_cons {e : Event} (he : g.Harmless e) (cpu j : ℕ) (log : List Event) :
    ownByte cpu j (e :: log) = ownByte cpu j log := by
  cases e with
  | index cpu i => rfl
  | queued cpu v => rfl
  | updateIrq cpu line level => rfl
  | lookup cpu k entry => rfl
  | bankWrite cpu offset value => exact absurd he id
  | retired cpu k => exact absurd he id

/-- Recording a harmless event keeps the invariant. -/
theorem Banked.record (h : Banked config ids g) {e : Event} (he : g.Harmless e) : Banked config ids (g.record e) := by
  refine ⟨h.config, h.cpus, h.others, ?_, ?_⟩
  · intro j hlow hhigh b hb
    change ownByte 0 j (e :: g.log) = some b at hb
    rw [he.ownByte_cons] at hb
    exact h.mem j hlow hhigh b hb
  · apply h.lookups.cons
    rintro cpu k entry rfl i hi b hb
    obtain ⟨hk, hbytes⟩ := he
    have hcpu : cpu = 0 := by
      by_contra hne
      rw [h.others cpu hne] at hk
      cases hk
    subst hcpu
    have hlt := k.isLt
    rw [hbytes i hi, h.config, Nat.add_assoc]
    exact h.mem _ (by omega) (by omega) b hb

/-- Recording several harmless events keeps the invariant. -/
theorem Banked.recordAll (h : Banked config ids g) {new : List Event} (hnew : ∀ e ∈ new, g.Harmless e) :
    Banked config ids { g with log := new ++ g.log } := by
  induction new with
  | nil => exact h
  | cons e new ih =>
    have hrest := ih fun e' he' => hnew e' (List.mem_cons_of_mem _ he')
    exact hrest.record (g := { g with log := new ++ g.log }) (hnew e List.mem_cons_self)

/-- An access outside the virtual interface keeps the invariant. -/
theorem Banked.of_leaves (h : Banked config ids g) (hl : Leaves config config.EntryByte g g') : Banked config ids g' := by
  have hun := hl h.config
  obtain ⟨new, hlog, hnew⟩ := hun.log
  have hharmless : ∀ e ∈ new, g.Harmless e := by
    intro e he
    obtain ⟨cpu, i, rfl⟩ := hnew e he
    trivial
  exact (h.recordAll hharmless).of_frame hun.config hun.cpus hun.vCpuQueue hlog hun.mem

/-- Looking a queued entry up in the memory as it is does no harm. -/
theorem harmless_lookup {cpu : ℕ} {k : Fin 64} (hk : k ∈ g.vCpuQueue cpu) :
    g.Harmless (.lookup cpu k (g.getVIntEntry k)) :=
  ⟨hk, fun _ hi => wordByte_loadWord hi⟩

/-! ## The layout -/

/-- The entries are apart from the acknowledge words, from the target bytes of the private
interrupts and from the virtual interface of CPU 0. -/
structure EntriesApart (config : GicConfig) (ids : List ℕ) : Prop where
  ack : ∀ c ∈ ids, ∀ a, config.EntryByte a → ¬ InBlock (ackAddr config c) 4 a ∧ ¬ InBlock (vAckAddr config c) 4 a
  target : ∀ n < 32, ¬ config.EntryByte (config.distBase + 0x800 + n)
  virtual : ∀ a, config.EntryByte a → ¬ InBlock config.vCpuBase 0x10 a

theorem EntriesApart.apart (h : EntriesApart config ids) (hconfig : g.config = config) (hcpus : g.cpus = ids) {a : ℕ}
    (ha : config.EntryByte a) : g.Apart a := by
  intro c hc
  rw [hconfig]
  exact h.ack c (hcpus ▸ hc) a ha

/-- A round keeps the invariant. -/
theorem Banked.serves (h : Banked config ids g) (hlay : EntriesApart config ids) (hs : Serves g g') :
    Banked config ids g' := by
  obtain ⟨new, hlog, hnew⟩ := hs.log
  have hharmless : ∀ e ∈ new, g.Harmless e := by
    intro e he
    have hexp := hnew e he
    cases e with
    | index cpu i => trivial
    | queued cpu v => trivial
    | updateIrq cpu line level => trivial
    | lookup cpu k entry =>
      refine ⟨hexp.1, fun i hi => hexp.2 i hi (hlay.apart h.config h.cpus ?_)⟩
      have hlt := k.isLt
      unfold GicConfig.EntryByte InBlock
      rw [h.config]
      omega
    | bankWrite cpu offset value => exact hexp
    | retired cpu k => exact hexp
  refine (h.recordAll hharmless).of_frame hs.config hs.cpus hs.vCpuQueue hlog fun a ha => ?_
  exact hs.mem a (hlay.apart (hs.config.trans h.config) (hs.cpus.trans h.cpus) ha).quiet

theorem Banked.genMaint (h : Banked config ids g) (hlay : EntriesApart config ids) (cpu : ℕ) :
    Banked config ids (g.genMaint cpu) := by
  have hserve := serves_genMaint g cpu
  split at hserve
  · exact h.serves hlay hserve
  · exact (h.of_frame rfl rfl rfl rfl fun _ _ => rfl : Banked config ids (g.pushCpu cpu _)).serves hlay hserve

/-! ## Writes to a bank -/

/-- Clearing `State` changes the last byte of an entry only. -/
theorem wordByte_clearState (entry : Word) {i : ℕ} (hi : i < 4) :
    wordByte (clearState entry) i = if i = 3 then wordByte entry 3 &&& 0xCF#8 else wordByte entry i := by
  unfold clearState wordByte
  rw [BitVec.extractLsb'_and]
  rcases (by omega : i = 0 ∨ i = 1 ∨ i = 2 ∨ i = 3) with rfl | rfl | rfl | rfl
  · exact BitVec.and_allOnes
  · exact BitVec.and_allOnes
  · exact BitVec.and_allOnes
  · rfl

/-- A store outside the entries keeps the invariant. -/
theorem Banked.putByte (h : Banked config ids g) {addr : ℕ} (ha : ¬ config.EntryByte addr) (b : BitVec 8) :
    Banked config ids (g.putByte addr b) := by
  refine h.of_frame rfl rfl rfl rfl fun a hin => storeByte_frame ?_
  rintro rfl
  exact ha hin

theorem Banked.memcpy (h : Banked config ids g) {addr size : ℕ} (ha : ∀ a, config.EntryByte a → ¬ InBlock addr size a)
    (value : Word) : Banked config ids (g.memcpy addr value size) := by
  refine h.of_frame rfl rfl rfl rfl fun a hin => ?_
  have hout := ha a hin
  unfold InBlock at hout
  simp only [Gic.memcpy]
  rw [store_frame (by omega)]

theorem Banked.putWord (h : Banked config ids g) {addr : ℕ} (ha : ∀ a, config.EntryByte a → ¬ InBlock addr 4 a)
    (value : Word) : Banked config ids (g.putWord addr value) := by
  refine h.of_frame rfl rfl rfl rfl fun a hin => ?_
  have hout := ha a hin
  unfold InBlock at hout
  exact storeWord_frame (by omega)

/-- A bit of the status registers of a bank. -/
theorem Banked.bankByte (h : Banked config ids g) (off : ℕ) (hoff : off < 0x100) (id : ℕ) (b : BitVec 8) :
    Banked config ids (g.putByte (g.vDistBank id + off) b) := by
  apply h.putByte
  unfold vDistBank GicConfig.bank GicConfig.EntryByte InBlock
  rw [h.config]
  omega

/-- A CPU that writes its bank keeps the invariant. -/
theorem Banked.bankWrite (h : Banked config ids g) (id offset : ℕ) (value : Word) :
    Banked config ids ((g.putWord (g.vDistBank id + offset) value).record (.bankWrite id offset value)) := by
  have haddr : g.vDistBank id = config.vDistBase + 0x1000 * id := by rw [vDistBank, h.config, GicConfig.bank]
  refine ⟨h.config, h.cpus, h.others, fun j hlow hhigh b hb => ?_, h.lookups.cons fun _ _ _ he => by cases he⟩
  change (if id = 0 ∧ offset ≤ j ∧ j < offset + 4 then some (wordByte value (j - offset)) else ownByte 0 j g.log) = some b at hb
  change storeWord g.mem (g.vDistBank id + offset) value (config.vDistBase + j) = b
  split at hb
  · rename_i hin
    obtain ⟨rfl, hle, hlt⟩ := hin
    cases hb
    have hsum : config.vDistBase + j = g.vDistBank 0 + offset + (j - offset) := by omega
    rw [hsum, storeWord, store_add (by omega)]
  · rename_i hout
    rw [storeWord_frame]
    · exact h.mem j hlow hhigh b hb
    · omega

/-- A CPU that ends the interrupt of an entry keeps the invariant. -/
theorem Banked.retireEntry (h : Banked config ids g) (id : ℕ) (k : Fin 64) : Banked config ids (g.retireEntry id k) := by
  have hk := k.isLt
  have hmark : Banked config ids (g.orByte (g.vDistBank id + ((k : ℕ) / 32 * 4 + 0x30)) ((k : ℕ) % 32)) :=
    h.bankByte _ (by omega) id _
  unfold Gic.retireEntry
  generalize g.orByte (g.vDistBank id + ((k : ℕ) / 32 * 4 + 0x30)) ((k : ℕ) % 32) = g₁ at hmark
  have haddr : g₁.vDistBank id = config.vDistBase + 0x1000 * id := by rw [vDistBank, hmark.config, GicConfig.bank]
  refine ⟨hmark.config, hmark.cpus, hmark.others, fun j hlow hhigh b hb => ?_, hmark.lookups.cons fun _ _ _ he => by cases he⟩
  change (if id = 0 ∧ j = 0x100 + 4 * (k : ℕ) + 3 then (ownByte 0 j g₁.log).map (· &&& 0xCF#8) else ownByte 0 j g₁.log) =
    some b at hb
  change storeWord g₁.mem (g₁.vDistBank id + (0x100 + k * 4)) _ (config.vDistBase + j) = b
  by_cases hin : id = 0 ∧ 0x100 + 4 * (k : ℕ) ≤ j ∧ j < 0x100 + 4 * (k : ℕ) + 4
  · obtain ⟨rfl, hle, hlt⟩ := hin
    have hsum : config.vDistBase + j = g₁.vDistBank 0 + (0x100 + k * 4) + (j - (0x100 + 4 * k)) := by omega
    rw [hsum, storeWord, store_add (by omega), wordByte_clearState _ (by omega)]
    split at hb
    · rename_i hlast
      obtain ⟨b₀, hb₀, rfl⟩ := Option.map_eq_some_iff.mp hb
      rw [if_pos (by omega), wordByte_loadWord (by omega), ← hmark.mem j hlow hhigh b₀ hb₀, hsum]
      congr 2
      omega
    · rename_i hlast
      rw [if_neg (by omega), wordByte_loadWord (by omega), ← hsum]
      exact hmark.mem j hlow hhigh b hb
  · rw [if_neg (by omega)] at hb
    rw [storeWord_frame (by omega)]
    exact hmark.mem j hlow hhigh b hb

/-! ## Completions and list register writes -/

/-- Showing another value at the virtual interface of CPU 0 keeps the invariant. -/
theorem Banked.setVirtual (h : Banked config ids g) (hlay : EntriesApart config ids) (value : Word) :
    Banked config ids (g.setCurrentVirtualInterruptId 0 value) := by
  refine h.putWord (fun a ha => ?_) value
  have hout := hlay.virtual a ha
  rw [h.config]
  unfold InBlock at hout ⊢
  omega

theorem Banked.notifyEnd (h : Banked config ids g) (hlay : EntriesApart config ids) (id : ℕ) (k : Fin 64) :
    Banked config ids (g.notifyEnd id k) := by
  have hk := k.isLt
  have hfirst : Banked config ids (g.orByte (g.vDistBank id + 0x10) 0) := h.bankByte _ (by omega) id _
  exact (hfirst.bankByte (0x20 + (k : ℕ) / 32 * 4) (by omega) id _).genMaint hlay id

theorem Banked.notifyEmpty (h : Banked config ids g) (hlay : EntriesApart config ids) (id : ℕ) :
    Banked config ids (g.notifyEmpty id) := by
  unfold Gic.notifyEmpty
  split
  · exact (h.bankByte 0x10 (by omega) id _).genMaint hlay id
  · exact h

/-- Showing the next entry for CPU 0 keeps the invariant. -/
theorem Banked.nextVirtual (h : Banked config ids g) (hlay : EntriesApart config ids) :
    Banked config ids ((g.popVCpu 0).nextVirtual 0) := by
  have hpop : Banked config ids (g.popVCpu 0) := by
    refine ⟨h.config, h.cpus, fun id hid => ?_, h.mem, h.lookups⟩
    rw [popVCpu_vCpuQueue, if_neg hid]
    exact h.others id hid
  unfold Gic.nextVirtual
  split
  · rename_i k rest hqueue
    have hk : k ∈ (g.popVCpu 0).vCpuQueue 0 := by
      rw [hqueue]
      exact List.mem_cons_self
    exact (hpop.record (harmless_lookup hk)).setVirtual hlay _
  · have hshown := hpop.setVirtual hlay 1023#32
    dsimp only
    split
    · exact (hshown.bankByte 0x10 (by omega) 0 _).genMaint hlay 0
    · exact hshown

/-- A list register is written: only CPU 0 may put an entry into its queue. -/
theorem Banked.listEntry (h : Banked config ids g) (which : Fin 64) {value : Word} {id : ℕ}
    (hid : entryState value ≠ 0 → id = 0) : Banked config ids (g.listEntry which value id) := by
  have hwhich := which.isLt
  unfold Gic.listEntry
  dsimp only
  rw [Nat.add_assoc]
  split
  · exact h.bankByte _ (by omega) id _
  · rename_i hstate
    have hsearch : Banked config ids (g.lookupAll id) := by
      apply h.recordAll
      intro e he
      obtain ⟨k, hk, rfl⟩ := List.mem_map.mp (List.mem_reverse.mp he)
      exact harmless_lookup hk
    split
    · exact hsearch
    · have hpush : Banked config ids ((g.lookupAll id).pushVCpu id which) := by
        refine ⟨hsearch.config, hsearch.cpus, fun c hc => ?_, hsearch.mem, hsearch.lookups⟩
        rw [pushVCpu_vCpuQueue, if_neg (by rw [hid hstate]; exact hc)]
        exact hsearch.others c hc
      exact hpush.bankByte (0x30 + (which : ℕ) / 32 * 4) (by omega) id _

/-! ## One operation -/

/-- A guest write is one after which lookups still find what they should: only CPU 0 lists an
interrupt, and nothing but the writes and completions of CPU 0 stores over its entries. -/
structure OwnBank (g : Gic) (w : GuestWrite) : Prop where
  lists : w.region = .vDist → 0x100 ≤ w.offset → w.offset < 0x200 → entryState w.value ≠ 0 → w.id = 0
  stores : ¬ (w.id = 0 ∧ (w.region = .vDist ∨ w.region = .vCpu ∧ isCompletion w.offset)) →
    ∀ a, g.config.EntryByte a → ¬ w.Stores g.config a

/-- A completion on the virtual interface ends an entry of CPU 0 or fails. -/
theorem banked_completeVirtual (hlay : EntriesApart config ids) (h : Banked config ids g) (value : Word) (id : ℕ) :
    wp (completeVirtual value id) (fun _ => StaysBanked config ids g) (fun _ => StaysBanked config ids g) g := by
  by_cases hid : id = 0
  · subst hid
    apply wp_completeVirtual
    · intro k rest hqueue h'
      refine h'.record (harmless_lookup ?_)
      rw [hqueue]
      exact List.mem_cons_self
    · exact fun k rest _ g' h' => h'.retireEntry 0 k
    · intro k rest _ _
      apply keeps_endEntry
      · exact fun g i h' => h'.record (e := .index 0 i) trivial
      · exact fun _ _ h' => h'.of_frame rfl rfl rfl rfl fun _ _ => rfl
      · exact fun _ _ h' => h'.of_frame rfl rfl rfl rfl fun _ _ => rfl
      · exact fun g h' => h'.notifyEnd hlay 0 k
    · exact fun g h' => h'.nextVirtual hlay
  · apply wp.step
    rw [wp_get, h.others id hid]
    intro h'
    exact h'

/-- A write of a CPU to its own list registers keeps the invariant. -/
theorem banked_writeVDist (hlay : EntriesApart config ids) (h : Banked config ids g) {w : GuestWrite}
    (hregion : w.region = .vDist) (hown : g.OwnBank w) :
    wp (writeVDist w.offset w.value w.id) (fun _ => StaysBanked config ids g) (fun _ => StaysBanked config ids g) g := by
  apply wp_writeVDist
  · exact fun hoff h' => h'.listEntry _ (hown.lists hregion hoff.1 hoff.2)
  · exact fun _ g h' => h'.notifyEmpty hlay w.id
  · exact fun g h' => h'.bankWrite w.id w.offset w.value
  · intro hoff g off v hcases h'
    refine h'.memcpy (fun a ha => ?_) v
    rw [h'.config]
    by_cases hid : w.id = 0
    · have hout := hlay.virtual a ha
      rw [hid]
      unfold InBlock at hout ⊢
      omega
    · have hout := hown.stores (fun hself => hid hself.1) a (by rw [h.config]; exact ha)
      simp only [GuestWrite.Stores, hregion, not_or, not_and] at hout
      have hforward := hout.2.2 hoff
      rw [h.config] at hforward
      unfold InBlock at hforward ⊢
      omega

/-- A guest write keeps the invariant. -/
theorem banked_writeRegion (hlay : EntriesApart config ids) (h : Banked config ids g) {w : GuestWrite}
    (hown : g.OwnBank w) :
    wp (writeRegion w.region w.offset w.value w.len w.id) (fun _ => StaysBanked config ids g)
      (fun _ => StaysBanked config ids g) g := by
  by_cases hlist : w.region = .vDist
  · rw [hlist]
    exact banked_writeVDist hlay h hlist hown
  · by_cases hend : w.region = .vCpu ∧ isCompletion w.offset
    · rw [hend.1]
      apply wp_writeVCpu
      · intro _ _
        exact banked_completeVirtual hlay h w.value w.id
      · intro hoff
        exact absurd hend.2 hoff
    · have hstores := hown.stores (by rintro ⟨-, hl | he⟩; exacts [hlist hl, hend he])
      rw [h.config] at hstores
      have hrun := wp_leaves_writeRegion g hlist hend hstores
      exact hrun.imp (fun _ _ hl h' => h'.of_leaves hl) fun _ _ hl h' => h'.of_leaves hl

/-- One operation keeps the invariant. -/
theorem Banked.step (h : Banked config ids g) (hlay : EntriesApart config ids) {op : GicOp}
    (hown : ∀ w, g.config.guestWrite op = some w → g.OwnBank w) :
    wp (Gic.step op) (fun _ => Banked config ids) (fun _ => Banked config ids) g := by
  have hround : ∀ {x : GicM Unit}, wp x (fun _ => StaysBanked config ids g) (fun _ => StaysBanked config ids g) g →
      wp x (fun _ g' => Banked config ids g'.combLogic) (fun _ => Banked config ids) g := by
    intro x hx
    exact hx.imp (fun _ g' h' => (h' h).serves hlay (serves_combLogic g')) fun _ _ h' => h' h
  apply wp_step op (fun _ => h) fun _ _ => h
  · intro w hw
    exact hround (banked_writeRegion hlay h (hown w hw))
  · intro val irqIdx _
    apply hround
    have hrun := keeps_leaves_raiseLine val (fun hlow => hlay.target (actualIrq irqIdx) hlow) g
    exact hrun.imp (fun _ _ hl h' => h'.of_leaves hl) fun _ _ hl h' => h'.of_leaves hl

/-! ## Runs -/

/-- In every run in which only CPU 0 lists interrupts and nothing else stores over its entries,
every lookup finds what the CPU it is made for has written. -/
theorem looksUpOwn_of_ownBank (config : GicConfig) (mem : ByteMemory) (behind : ℕ → ℕ → Word)
    (stack : ℕ → BitVec 8) (ids : List ℕ) (ops : List GicOp) (hlay : EntriesApart config ids)
    (hcond : Along step (fun g op => ∀ w, g.config.guestWrite op = some w → g.OwnBank w)
      (start config mem behind stack ids) ops) :
    LooksUpOwn (endState (runAll ops (start config mem behind stack ids))).log := by
  obtain ⟨hconfig, hcpus, hlog, -, -, hqueue⟩ := start_spec config mem behind stack ids
  have hstart : Banked config ids (start config mem behind stack ids) := by
    refine ⟨hconfig, hcpus, fun id _ => hqueue id, ?_, ?_⟩
    · intro j _ _ b hb
      rw [hlog] at hb
      cases hb
    · rw [hlog]
      exact looksUpOwn_nil
  have hall : wp (runAll ops) (fun _ => Banked config ids) (fun _ => Banked config ids) (start config mem behind stack ids) :=
    hcond.wp_forM (fun _ _ _ h hown => h.step hlay hown) hstart
  exact hall.endState.lookups

/-- The entries of the small controller are apart from its other registers. -/
theorem entriesApart_small : EntriesApart (small [0, 1]).config [0, 1] := by
  constructor
  · intro c hc a ha
    simp only [List.mem_cons, List.not_mem_nil, or_false] at hc
    have hin : InBlock (0x10000 + 0x100) 0x100 a := ha
    change ¬ InBlock (4 * ((0x1000 + 0x100 * c + 0xC) / 4)) 4 a ∧ ¬ InBlock (4 * ((0x2000 + 0x100 * c + 0xC) / 4)) 4 a
    unfold InBlock at hin ⊢
    omega
  · intro n hn
    change ¬ InBlock (0x10000 + 0x100) 0x100 (0 + 0x800 + n)
    unfold InBlock
    omega
  · intro a ha
    have hin : InBlock (0x10000 + 0x100) 0x100 a := ha
    change ¬ InBlock 0x2000 0x10 a
    unfold InBlock at hin ⊢
    omega

/-- With everything switched on, CPU 1 writes an entry without `State` to its own bank, and CPU 0 lists interrupt 33
and ends it. -/
def list33Cpu0 : List GicOp :=
  [.write (some 0) 0#64 1#32 4, .write (some 0) 0x1000#64 1#32 4, .write (some 1) 0x1000#64 1#32 4,
    .write (some 1) 0x10100#64 0x00000022#32 4, .write (some 0) 0x10100#64 0x10000021#32 4,
    .write (some 0) 0x2010#64 33#32 4]

/-- Each lookup is for CPU 0 and finds what it wrote. -/
theorem looksUpOwn_cpu0 : LooksUpOwn (endState (runAll list33Cpu0 (small [0, 1]))).log ∧
    .lookup 0 0 0x10000021#32 ∈ (endState (runAll list33Cpu0 (small [0, 1]))).log := by
  refine ⟨looksUpOwn_of_ownBank _ _ _ _ _ _ entriesApart_small ?_, by decide +kernel⟩
  have hdist : ∀ w ∈ list33Cpu0.filterMap (small [0, 1]).config.guestWrite, w.region = .dist →
      w.offset = 0 ∧ w.len = 4 := by
    decide +kernel
  have hcpu : ∀ w ∈ list33Cpu0.filterMap (small [0, 1]).config.guestWrite, w.region = .cpu →
      isCompletion w.offset = false ∧ w.offset + w.id * 0x100 + w.len ≤ 0x1000 := by
    decide +kernel
  have hlist : ∀ w ∈ list33Cpu0.filterMap (small [0, 1]).config.guestWrite, w.region = .vDist → w.id ≠ 0 →
      w.id = 1 ∧ w.offset = 0x100 ∧ entryState w.value = 0 := by
    decide +kernel
  have hend : ∀ w ∈ list33Cpu0.filterMap (small [0, 1]).config.guestWrite, w.region = .vCpu →
      w.id = 0 ∧ isCompletion w.offset := by
    decide +kernel
  apply along_of_enabledBelow _ (enabledBelow_start _ _ _ _ _)
  intro g hg op hop w hw
  rw [hg.config] at hw
  have hmem := List.mem_filterMap.mpr ⟨op, hop, hw⟩
  refine ⟨fun hregion _ _ hstate => ?_, fun hnot a ha => ?_⟩
  · by_contra hid
    exact hstate (hlist w hmem hregion hid).2.2
  · rw [hg.config] at ha ⊢
    have hin : InBlock (0x10000 + 0x100) 0x100 a := ha
    unfold GuestWrite.Stores GicConfig.ListByte GicConfig.bank
    unfold InBlock at hin ⊢
    cases hregion : w.region with
    | dist =>
      obtain ⟨hoffset, hlen⟩ := hdist w hmem hregion
      rw [hoffset, hlen]
      change ¬ (0 + 0 ≤ a ∧ a < 0 + 0 + 4)
      omega
    | cpu =>
      obtain ⟨hcompletion, hlow⟩ := hcpu w hmem hregion
      rw [hcompletion]
      change ¬ (0x1000 + w.offset + w.id * 0x100 ≤ a ∧ a < 0x1000 + w.offset + w.id * 0x100 + w.len)
      omega
    | vCpu => exact absurd ⟨(hend w hmem hregion).1, .inr ⟨hregion, (hend w hmem hregion).2⟩⟩ hnot
    | vDist =>
      obtain ⟨hid, hoffset, -⟩ := hlist w hmem hregion fun hid => hnot ⟨hid, .inl hregion⟩
      dsimp only
      rw [hid, hoffset]
      omega

/-- The distributor and the interface of CPU 1 are switched on, and CPU 1 lists interrupt 33. -/
def list33 : List GicOp :=
  [.write (some 0) 0#64 1#32 4, .write (some 1) 0x1000#64 1#32 4, .write (some 1) 0x10100#64 0x10000021#32 4]

/-- The lookup for CPU 1 finds list register 0 of CPU 0. -/
theorem other_bank_found : ¬ LooksUpOwn (endState (runAll list33 (small [0, 1]))).log := by
  intro hall
  have hlog : (endState (runAll list33 (small [0, 1]))).log =
      [.updateIrq 0 0 false, .updateIrq 1 2 true] ++ .lookup 1 0 0#32 ::
        [.updateIrq 1 0 false, .bankWrite 1 0x100 0x10000021#32, .updateIrq 0 0 false, .updateIrq 1 2 false,
          .updateIrq 1 0 false, .updateIrq 0 0 false, .updateIrq 1 0 false] := by
    decide +kernel
  have hbyte := hall _ 1 0 0#32 _ hlog 0 (by decide) 0x21#8 (by decide)
  exact absurd hbyte (by decide)

end Gic

end Vpsim.Peripherals
