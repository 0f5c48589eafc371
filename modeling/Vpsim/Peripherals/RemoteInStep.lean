import Vpsim.Peripherals.RemoteTransaction

/-!
# The two sides of a remote link stay in step

Neither side looks at how many bytes a read has returned. In runs whose reads return as many bytes as
they are asked for, every request is served as it was made and every response is taken as it was given.
-/

namespace Vpsim.Peripherals

open Vpsim.Lib

/-- What a request returns for its completion: a successful read the bytes of the completion. -/
def Request.outcome (r : Request) (c : Completion) : Outcome :=
  ⟨c.type.toNat, if r.type = .remoteRead ∧ c.type.toNat = remoteReadOk then c.data else r.data⟩

namespace Link

/-- The local accesses are those of the requests, the requests return what their completions give, and
the headers that are read are those that were sent. -/
structure InStep (s : Link) : Prop where
  locals : s.locals <+: s.requests.map Request.localCall
  outcomes : s.outcomes <+: List.zipWith Request.outcome s.requests s.completions
  headers : s.headersRead <+: s.headersSent

/-- The number of bytes that the next read of the target asks for. -/
def targetAsks (s : Link) : ℕ :=
  match s.target.point with
  | .receiving _ => RemoteResponse.size s.target.mResponse - preallocSize
  | _ => RemoteResponse.sizeof

/-- The number of bytes that the next read of the initiator asks for. -/
def initiatorAsks (s : Link) : ℕ :=
  match s.initiator.point with
  | .receiving => RemoteTransaction.size s.initiator.trans - preallocSize
  | _ => RemoteTransaction.sizeof

/-- A read returns as many bytes as it is asked for. -/
def ReadsAll (s : Link) : LinkAction → Prop
  | .targetRead n => n = s.targetAsks
  | .initiatorRead n => n = s.initiatorAsks
  | _ => True

instance (s : Link) (a : LinkAction) : Decidable (s.ReadsAll a) := by
  cases a <;> unfold ReadsAll <;> infer_instance

/-! ## Headers -/

/-- The structure holds the request. -/
structure IsRequest (r : Request) (m : List UInt8) : Prop where
  length : m.length = RemoteTransaction.sizeof
  type : RemoteTransaction.type m = r.type.toNat
  address : RemoteTransaction.address m = r.address
  size : RemoteTransaction.size m = r.data.length
  data : r.type = .remoteWrite →
    (RemoteTransaction.data m).take (min r.data.length preallocSize) = r.data.take preallocSize

/-- The structure holds the response of a completion, with `n` bytes of data. -/
structure IsResponse (c : Completion) (n : ℕ) (m : List UInt8) : Prop where
  length : m.length = RemoteResponse.sizeof
  type : RemoteResponse.type m = c.type.toNat
  size : RemoteResponse.size m = n
  data : c.type.toNat = remoteReadOk →
    (RemoteResponse.data m).take (min n preallocSize) = c.data.take (min n preallocSize)

/-- A number of `n` bytes that is written reads back. -/
theorem leValue_slice_patch {offset n w : ℕ} {m : List UInt8} (h : offset ≤ m.length) (hw : w < 256 ^ n) :
    leValue (slice offset n (patch offset (leBytes n w) m)) = w := by
  rw [slice_patch h (length_leBytes n w), leValue_leBytes hw]

/-- `remoteWrite` and `remoteRead` assign the fields of their request. -/
theorem isRequest_requestBytes (r : Request) {m : List UInt8} (h : m.length = RemoteTransaction.sizeof) :
    IsRequest r (requestBytes r m) := by
  change m.length = 40 at h
  have htype : r.type.toNat < 256 ^ 4 := by
    cases r.type <;> decide
  have haddress : r.address < 256 ^ 8 := r.address_lt
  have hsize : r.data.length < 256 ^ 8 := r.size_lt.trans (by decide)
  have hdata : (r.data.take preallocSize).length = min preallocSize r.data.length := List.length_take
  have hprealloc : preallocSize = 16 := rfl
  unfold requestBytes
  dsimp only
  generalize h₁ : patch 0 (leBytes 4 r.type.toNat) m = m₁
  have hl₁ : m₁.length = 40 := by
    rw [← h₁, length_patch (by rw [length_leBytes]; omega), h]
  generalize h₂ : patch 8 (leBytes 8 r.address) m₁ = m₂
  have hl₂ : m₂.length = 40 := by
    rw [← h₂, length_patch (by rw [length_leBytes]; omega), hl₁]
  generalize h₃ : patch 16 (leBytes 8 r.data.length) m₂ = m₃
  have hl₃ : m₃.length = 40 := by
    rw [← h₃, length_patch (by rw [length_leBytes]; omega), hl₂]
  generalize h₄ : (if r.type = .remoteWrite then patch 24 (r.data.take preallocSize) m₃ else m₃) = m₄
  have hkeep {offset len : ℕ} (hoff : offset + len ≤ 24) : slice offset len m₄ = slice offset len m₃ := by
    rw [← h₄]
    split
    · exact slice_patch_before (by omega) hoff
    · rfl
  refine ⟨?_, ?_, ?_, ?_, fun hwrite => ?_⟩
  · change m₄.length = 40
    rw [← h₄]
    split
    · rw [length_patch (by omega), hl₃]
    · exact hl₃
  · change leValue (slice 0 4 m₄) = _
    rw [hkeep (by omega), ← h₃, slice_patch_before (by omega) (by omega), ← h₂,
      slice_patch_before (by omega) (by omega), ← h₁, leValue_slice_patch (by omega) htype]
  · change leValue (slice 8 8 m₄) = _
    rw [hkeep (by omega), ← h₃, slice_patch_before (by omega) (by omega), ← h₂,
      leValue_slice_patch (by omega) haddress]
  · change leValue (slice 16 8 m₄) = _
    rw [hkeep (by omega), ← h₃, leValue_slice_patch (by omega) hsize]
  · change (slice 24 preallocSize m₄).take _ = _
    rw [← h₄, if_pos hwrite, min_comm, ← hdata, take_slice_patch (by omega) (by omega)]

/-- `completeRead` assigns the fields of its response. -/
theorem isResponse_responseBytes (c : Completion) {n : ℕ} {m : List UInt8} (hn : n < 2 ^ 32)
    (hc : c.type.toNat = remoteReadOk → n ≤ c.data.length) (h : m.length = RemoteResponse.sizeof) :
    IsResponse c n (responseBytes c n m) := by
  change m.length = 32 at h
  have htype : c.type.toNat < 256 ^ 4 := UInt32.toNat_lt c.type
  have hsize : n < 256 ^ 8 := hn.trans (by decide)
  have hdata : (c.data.take (min n preallocSize)).length = min (min n preallocSize) c.data.length :=
    List.length_take
  have hprealloc : preallocSize = 16 := rfl
  unfold responseBytes
  dsimp only
  generalize h₁ : patch 0 (leBytes 4 c.type.toNat) m = m₁
  have hl₁ : m₁.length = 32 := by
    rw [← h₁, length_patch (by rw [length_leBytes]; omega), h]
  generalize h₂ : patch 8 (leBytes 8 n) m₁ = m₂
  have hl₂ : m₂.length = 32 := by
    rw [← h₂, length_patch (by rw [length_leBytes]; omega), hl₁]
  generalize h₃ :
    (if c.type.toNat = remoteReadOk then patch 16 (c.data.take (min n preallocSize)) m₂ else m₂) = m₃
  have hkeep {offset len : ℕ} (hoff : offset + len ≤ 16) : slice offset len m₃ = slice offset len m₂ := by
    rw [← h₃]
    split
    · exact slice_patch_before (by omega) hoff
    · rfl
  refine ⟨?_, ?_, ?_, fun hok => ?_⟩
  · change m₃.length = 32
    rw [← h₃]
    split
    · rw [length_patch (by omega), hl₂]
    · exact hl₂
  · change leValue (slice 0 4 m₃) = _
    rw [hkeep (by omega), ← h₂, slice_patch_before (by omega) (by omega), ← h₁,
      leValue_slice_patch (by omega) htype]
  · change leValue (slice 8 8 m₃) = _
    rw [hkeep (by omega), ← h₂, leValue_slice_patch (by omega) hsize]
  · have hlen : (c.data.take (min n preallocSize)).length = min n preallocSize := by
      have := hc hok
      omega
    change (slice 16 preallocSize m₃).take (min n preallocSize) = _
    rw [← h₃, if_pos hok]
    nth_rewrite 1 [← hlen]
    exact take_slice_patch (by omega) (by omega)

/-! ## The phases of a request -/

/-- The structures have their sizes, and `buf` is at least as long as `mBufSize` says. -/
structure Sized (s : Link) : Prop where
  mRequest : s.target.mRequest.length = RemoteTransaction.sizeof
  mResponse : s.target.mResponse.length = RemoteResponse.sizeof
  trans : s.initiator.trans.length = RemoteTransaction.sizeof
  resp : s.initiator.resp.length = RemoteResponse.sizeof
  buf : s.initiator.mBufSize ≤ s.initiator.buf.length

/-- All requests have been served and have returned. -/
structure Closed (s : Link) : Prop where
  length : s.completions.length = s.requests.length
  locals : s.locals = s.requests.map Request.localCall
  outcomes : s.outcomes = List.zipWith Request.outcome s.requests s.completions
  headers : s.headersRead = s.headersSent

/-- All requests but the last, `r`, have been served and have returned. -/
structure Open (s : Link) (r : Request) (read served : Bool) (answer : List Completion) : Prop where
  log : ∃ rs cs hs, cs.length = rs.length ∧ s.requests = rs ++ [r] ∧ s.completions = cs ++ answer ∧
    s.locals = rs.map Request.localCall ++ (if served then [r.localCall] else []) ∧
    s.outcomes = List.zipWith Request.outcome rs cs ∧ s.headersSent = hs ++ [s.target.mRequest] ∧
    s.headersRead = hs ++ if read then [s.target.mRequest] else []
  header : IsRequest r s.target.mRequest

/-- The data that follows a request. -/
def requestRest (r : Request) : List UInt8 :=
  if r.type = .remoteWrite then r.data.drop preallocSize else []

/-- The number of bytes of a response. -/
def responseSize (r : Request) (c : Completion) : ℕ :=
  if r.type = .remoteRead ∧ c.type.toNat = remoteReadOk then r.data.length else 0

/-- The data that follows a response. -/
def responseRest (r : Request) (c : Completion) : List UInt8 :=
  if r.type = .remoteRead ∧ c.type.toNat = remoteReadOk then c.data.drop preallocSize else []

/-- The target has still to write the data of its request, or waits for the response. -/
structure TargetAt (s : Link) (r : Request) (writing : Bool) : Prop where
  point : s.target.point = if writing then .writing r else .awaiting r
  long : writing = true → r.type = .remoteWrite ∧ preallocSize < r.data.length

/-- The initiator has still to write the data of its response, or polls. -/
structure InitiatorAt (s : Link) (r : Request) (c : Completion) (writing : Bool) : Prop where
  point : s.initiator.point = if writing then .responding (responseRest r c) else .polling
  length : r.type = .remoteRead → c.data.length = r.data.length
  short : writing = false ∨ responseRest r c ≠ []

/-- Where a run can be between two actions. -/
inductive Phase (s : Link) : Prop
  | idle (log : Closed s) (ht : s.target.point = .ready) (hi : s.initiator.point = .polling)
      (hdown : s.toInitiator = []) (hup : s.toTarget = [])
  | sent (r : Request) (w : Bool) (log : Open s r false false []) (ht : TargetAt s r w)
      (hi : s.initiator.point = .polling)
      (hdown : s.toInitiator = s.target.mRequest ++ if w then [] else requestRest r)
      (hup : s.toTarget = [])
  | received (r : Request) (w : Bool) (log : Open s r true false []) (ht : TargetAt s r w)
      (hi : s.initiator.point = .receiving) (htrans : s.initiator.trans = s.target.mRequest)
      (hwrite : r.type = .remoteWrite) (hlong : preallocSize < r.data.length)
      (hbuf : r.data.length ≤ s.initiator.buf.length)
      (hdata : s.initiator.buf.take preallocSize = r.data.take preallocSize)
      (hdown : s.toInitiator = if w then [] else r.data.drop preallocSize) (hup : s.toTarget = [])
  | busy (r : Request) (log : Open s r true true []) (ht : s.target.point = .awaiting r)
      (hi : s.initiator.point = .busy) (htrans : s.initiator.trans = s.target.mRequest)
      (hdown : s.toInitiator = []) (hup : s.toTarget = [])
  | answered (r : Request) (c : Completion) (w : Bool) (log : Open s r true true [c])
      (ht : s.target.point = .awaiting r) (hi : InitiatorAt s r c w)
      (hresp : IsResponse c (responseSize r c) s.initiator.resp) (hdown : s.toInitiator = [])
      (hup : s.toTarget = s.initiator.resp ++ if w then [] else responseRest r c)
  | returning (r : Request) (c : Completion) (w : Bool) (data : List UInt8) (log : Open s r true true [c])
      (ht : s.target.point = .receiving data) (hi : InitiatorAt s r c w)
      (hresp : IsResponse c (responseSize r c) s.target.mResponse) (hread : r.type = .remoteRead)
      (hok : c.type.toNat = remoteReadOk) (hlong : preallocSize < r.data.length)
      (hlength : data.length = r.data.length)
      (hdata : data.take preallocSize = c.data.take preallocSize) (hdown : s.toInitiator = [])
      (hup : s.toTarget = if w then [] else responseRest r c)

/-- An action keeps the phases, or the party cannot act so. -/
def Fine (x : Except Fault Link) : Prop :=
  match x with
  | .ok s => Sized s ∧ Phase s
  | .error e => e = .blocked

variable {s : Link} {r : Request} {c : Completion} {w : Bool}

/-- A read of everything that it asks for returns these bytes and leaves the rest. -/
theorem readBytes_append {n : ℕ} {bytes rest : List UInt8} (hn : 0 < n) (h : bytes.length = n) :
    readBytes n n (bytes ++ rest) = .ok (bytes, rest) := by
  unfold readBytes
  rw [if_pos ⟨hn, le_rfl, by rw [List.length_append]; omega⟩, ← h, List.take_left, List.drop_left]

/-- A read of an empty channel waits for bytes. -/
theorem readBytes_nil (n asked : ℕ) : readBytes n asked [] = .error .blocked := by
  unfold readBytes
  exact if_neg fun h => absurd (Nat.lt_of_lt_of_le h.1 h.2.2) (Nat.not_lt_zero 0)

theorem copyTo_ok {offset : ℕ} {bytes buffer : List UInt8} (h : offset + bytes.length ≤ buffer.length) :
    copyTo offset bytes buffer = .ok (patch offset bytes buffer) := if_pos h

theorem TargetAt.ne_ready (h : TargetAt s r w) : s.target.point ≠ .ready := by
  rw [h.point]
  cases w <;> simp

theorem requestRest_eq_nil (h : ¬ (r.type = .remoteWrite ∧ preallocSize < r.data.length)) :
    requestRest r = [] := by
  unfold requestRest
  split
  · rename_i hwrite
    exact List.drop_of_length_le (Nat.le_of_not_lt fun hlt => h ⟨hwrite, hlt⟩)
  · rfl

/-- A new request keeps the parties in step. -/
theorem fine_request (hs : Sized s) (h : Phase s) (r : Request) : Fine (s.request r) := by
  unfold request
  split
  · rename_i hready
    cases h with
    | idle log ht hi hdown hup =>
      have hheader := isRequest_requestBytes r hs.mRequest
      refine ⟨⟨hheader.length, hs.mResponse, hs.trans, hs.resp, hs.buf⟩, ?_⟩
      refine .sent r (decide (r.type = .remoteWrite ∧ preallocSize < r.data.length)) ?_ ?_ hi ?_ hup
      · refine ⟨⟨s.requests, s.completions, s.headersSent, log.length, rfl, ?_, ?_, log.outcomes, rfl, ?_⟩,
          hheader⟩
        · exact (List.append_nil _).symm
        · exact log.locals.trans (List.append_nil _).symm
        · exact log.headers.trans (List.append_nil _).symm
      · refine ⟨?_, fun hw => of_decide_eq_true hw⟩
        simp only [decide_eq_true_eq]
      · dsimp only
        rw [hdown, List.nil_append]
        by_cases hlong : r.type = .remoteWrite ∧ preallocSize < r.data.length
        · rw [if_pos (decide_eq_true hlong), List.append_nil]
        · rw [if_neg (by simpa using hlong), requestRest_eq_nil hlong, List.append_nil]
    | sent r' w log ht => exact absurd hready ht.ne_ready
    | received r' w log ht => exact absurd hready ht.ne_ready
    | busy r' log ht => exact absurd (ht.symm.trans hready) (by simp)
    | answered r' c w log ht => exact absurd (ht.symm.trans hready) (by simp)
    | returning r' c w data log ht => exact absurd (ht.symm.trans hready) (by simp)
  · exact rfl

/-- A target that has data to write writes that of the last request. -/
theorem TargetAt.eq_of_writing {r' : Request} (h : TargetAt s r w) (hp : s.target.point = .writing r') :
    r' = r ∧ w = true := by
  have hpoint := h.point
  rw [hp] at hpoint
  cases w with
  | false => cases hpoint
  | true =>
    cases hpoint
    exact ⟨rfl, rfl⟩

/-- Sending the data of a request keeps the parties in step. -/
theorem fine_targetWrite (hs : Sized s) (h : Phase s) : Fine s.targetWrite := by
  unfold targetWrite
  split
  · rename_i r hp
    have hsized : Sized
        { s with
          target := { s.target with point := .awaiting r }
          toInitiator := s.toInitiator ++ r.data.drop preallocSize } :=
      ⟨hs.mRequest, hs.mResponse, hs.trans, hs.resp, hs.buf⟩
    refine ⟨hsized, ?_⟩
    cases h with
    | idle log ht => exact absurd (ht.symm.trans hp) (by simp)
    | sent r' w log ht hi hdown hup =>
      obtain ⟨rfl, rfl⟩ := ht.eq_of_writing hp
      refine .sent r false ⟨log.log, log.header⟩ ⟨rfl, by simp⟩ hi ?_ hup
      have hrest : requestRest r = r.data.drop preallocSize := if_pos (ht.long rfl).1
      dsimp only
      rw [hdown, if_pos rfl, List.append_nil, if_neg (by simp), hrest]
    | received r' w log ht hi htrans hwrite hlong hbuf hdata hdown hup =>
      obtain ⟨rfl, rfl⟩ := ht.eq_of_writing hp
      refine .received r false ⟨log.log, log.header⟩ ⟨rfl, by simp⟩ hi htrans hwrite hlong hbuf hdata ?_ hup
      dsimp only
      rw [hdown, if_pos rfl, List.nil_append, if_neg (by simp)]
    | busy r' log ht => exact absurd (ht.symm.trans hp) (by simp)
    | answered r' c w log ht => exact absurd (ht.symm.trans hp) (by simp)
    | returning r' c w data log ht => exact absurd (ht.symm.trans hp) (by simp)
  · exact rfl

/-- Accepting the response of its completion closes a request. -/
theorem Open.closed (log : Open s r true true [c]) {m : List UInt8} {rest data : List UInt8}
    (htype : RemoteResponse.type m = c.type.toNat)
    (hdata : data = if r.type = .remoteRead ∧ c.type.toNat = remoteReadOk then c.data else r.data) :
    Closed (finish data { s with target := { s.target with mResponse := m }, toTarget := rest }) := by
  obtain ⟨rs, cs, hs, hlen, hreq, hcompl, hloc, hout, hsent, hread⟩ := log.log
  refine ⟨?_, ?_, ?_, ?_⟩
  · change s.completions.length = s.requests.length
    rw [hcompl, hreq, List.length_append, List.length_append, hlen]
    rfl
  · change s.locals = s.requests.map Request.localCall
    rw [hloc, hreq, List.map_append]
    rfl
  · change s.outcomes ++ [⟨RemoteResponse.type m, data⟩] =
      List.zipWith Request.outcome s.requests s.completions
    rw [hout, hreq, hcompl, List.zipWith_append hlen.symm, htype, hdata]
    rfl
  · change s.headersRead = s.headersSent
    rw [hread, hsent]
    rfl

theorem responseRest_eq_nil (h : responseRest r c = []) (hi : InitiatorAt s r c w) : w = false :=
  hi.short.resolve_right fun hne => hne h

/-- Accepting the response of a completion keeps the parties in step. -/
theorem fine_accept (hs : Sized s) (log : Open s r true true [c]) (hi : InitiatorAt s r c w)
    (hresp : IsResponse c (responseSize r c) s.initiator.resp) (hdown : s.toInitiator = []) :
    Fine (accept r { s with
      target := { s.target with mResponse := s.initiator.resp }
      toTarget := if w then [] else responseRest r c }) := by
  have hprealloc : preallocSize = 16 := rfl
  unfold accept
  dsimp only
  split
  · rename_i hok
    rw [hresp.type] at hok
    have hn : responseSize r c = r.data.length := if_pos hok
    have hlen := hi.length hok.1
    have hdata := hresp.data hok.2
    rw [hn] at hdata
    have hcopy : (c.data.take (min r.data.length preallocSize)).length = min r.data.length preallocSize := by
      rw [List.length_take]
      omega
    rw [hresp.size, hn, hdata, copyTo_ok (by omega)]
    change Fine (if preallocSize < r.data.length then _ else _)
    split
    · rename_i hlong
      rw [min_eq_right hlong.le] at hcopy ⊢
      refine ⟨⟨hs.mRequest, hresp.length, hs.trans, hs.resp, hs.buf⟩, ?_⟩
      refine .returning r c w _ ⟨log.log, log.header⟩ rfl ⟨hi.point, hi.length, hi.short⟩ hresp hok.1 hok.2
        hlong (length_patch (by omega)) ?_ hdown rfl
      have htake := take_patch (b := c.data.take preallocSize) (Nat.zero_le r.data.length)
      rw [Nat.zero_add, hcopy] at htake
      exact htake
    · rename_i hshort
      have hshort := Nat.le_of_not_lt hshort
      have hall : c.data.take (min r.data.length preallocSize) = c.data :=
        List.take_of_length_le (by omega)
      have hnil : responseRest r c = [] := (if_pos hok).trans (List.drop_of_length_le (by omega))
      have hw := responseRest_eq_nil hnil hi
      subst hw
      refine ⟨⟨hs.mRequest, hresp.length, hs.trans, hs.resp, hs.buf⟩, .idle ?_ rfl hi.point hdown hnil⟩
      rw [hall, patch_zero hlen]
      exact log.closed hresp.type (if_pos hok).symm
  · rename_i hother
    rw [hresp.type] at hother
    have hnil : responseRest r c = [] := if_neg hother
    have hw := responseRest_eq_nil hnil hi
    subst hw
    refine ⟨⟨hs.mRequest, hresp.length, hs.trans, hs.resp, hs.buf⟩, .idle ?_ rfl hi.point hdown hnil⟩
    exact log.closed hresp.type (if_neg hother).symm

/-- A read of the target that returns all bytes keeps the parties in step. -/
theorem fine_targetRead (hs : Sized s) (h : Phase s) : Fine (s.targetRead s.targetAsks) := by
  have hprealloc : preallocSize = 16 := rfl
  -- Where the stream is empty, the target is blocked.
  have hempty (hup : s.toTarget = []) : Fine (s.targetRead s.targetAsks) := by
    unfold targetRead
    rw [hup]
    split
    · rw [readBytes_nil]
      exact rfl
    · rw [readBytes_nil]
      exact rfl
    · exact rfl
  cases h with
  | idle log ht hi hdown hup => exact hempty hup
  | sent r w log ht hi hdown hup => exact hempty hup
  | received r w log ht hi htrans hwrite hlong hbuf hdata hdown hup => exact hempty hup
  | busy r log ht hi htrans hdown hup => exact hempty hup
  | answered r c w log ht hi hresp hdown hup =>
    have hasks : s.targetAsks = RemoteResponse.sizeof := by
      unfold targetAsks
      rw [ht]
    unfold targetRead
    rw [ht, hasks, hup]
    dsimp only
    rw [readBytes_append (by decide) hresp.length]
    change Fine (accept r { s with
      target := { s.target with mResponse := patch 0 s.initiator.resp s.target.mResponse }
      toTarget := if w then [] else responseRest r c })
    rw [patch_zero (hs.resp.trans hs.mResponse.symm)]
    exact fine_accept hs log hi hresp hdown
  | returning r c w data log ht hi hresp hread hok hlong hlength hdata hdown hup =>
    cases w with
    | true => exact hempty hup
    | false =>
      have hn : responseSize r c = r.data.length := if_pos ⟨hread, hok⟩
      have hrest : responseRest r c = c.data.drop preallocSize := if_pos ⟨hread, hok⟩
      have hlen := hi.length hread
      have hasks : s.targetAsks = r.data.length - preallocSize := by
        unfold targetAsks
        rw [ht]
        dsimp only
        rw [hresp.size, hn]
      have hdrop : (c.data.drop preallocSize).length = r.data.length - preallocSize := by
        rw [List.length_drop, hlen]
      have hstream : s.toTarget = c.data.drop preallocSize ++ [] := by
        rw [hup, if_neg (by simp), hrest, List.append_nil]
      have hpatch : patch preallocSize (c.data.drop preallocSize) data = c.data := by
        unfold patch
        rw [hdata, List.take_append_drop, List.drop_of_length_le (by omega), List.append_nil]
      unfold targetRead
      rw [ht, hasks, hstream]
      dsimp only
      rw [hresp.size, hn, readBytes_append (by omega) hdrop]
      change Fine (copyTo preallocSize (c.data.drop preallocSize) data >>= _)
      rw [copyTo_ok (by omega), hpatch]
      refine ⟨⟨hs.mRequest, hs.mResponse, hs.trans, hs.resp, hs.buf⟩, .idle ?_ rfl hi.point hdown rfl⟩
      exact log.closed hresp.type (if_pos ⟨hread, hok⟩).symm

/-- A buffer that `get_buf` returns is long enough. -/
theorem le_getBuf (fresh : ℕ → UInt8) {n : ℕ} {i : Initiator} (h : i.mBufSize ≤ i.buf.length)
    (hn : n < 2 ^ 32) : n ≤ (getBuf fresh n i).buf.length ∧
      (getBuf fresh n i).mBufSize ≤ (getBuf fresh n i).buf.length := by
  have hmod : n % 2 ^ 32 = n := Nat.mod_eq_of_lt hn
  unfold getBuf
  rw [hmod]
  split
  · rw [List.length_map, List.length_range]
    exact ⟨le_rfl, le_rfl⟩
  · omega

/-- `get_buf` changes nothing but the buffer. -/
theorem getBuf_frame (fresh : ℕ → UInt8) (n : ℕ) (i : Initiator) : (getBuf fresh n i).trans = i.trans ∧
    (getBuf fresh n i).resp = i.resp ∧ (getBuf fresh n i).point = i.point := by
  unfold getBuf
  split
  · exact ⟨rfl, rfl, rfl⟩
  · exact ⟨rfl, rfl, rfl⟩

/-- The local access of a request marks it as served. -/
theorem Open.served (log : Open s r true false []) (i : Initiator) (down : List UInt8) :
    Open { s with initiator := i, toInitiator := down, locals := s.locals ++ [r.localCall] } r true true [] := by
  obtain ⟨rs, cs, hs, hlen, hreq, hcompl, hloc, hout, hsent, hread⟩ := log.log
  refine ⟨⟨rs, cs, hs, hlen, hreq, hcompl, ?_, hout, hsent, hread⟩, log.header⟩
  dsimp only
  rw [hloc, if_neg (by simp), List.append_nil]
  rfl

/-- Reading the header of a request marks it as received. -/
theorem Open.headerRead (log : Open s r false false []) (i : Initiator) (down : List UInt8) :
    Open { s with
      initiator := i
      toInitiator := down
      headersRead := s.headersRead ++ [s.target.mRequest] } r true false [] := by
  obtain ⟨rs, cs, hs, hlen, hreq, hcompl, hloc, hout, hsent, hread⟩ := log.log
  refine ⟨⟨rs, cs, hs, hlen, hreq, hcompl, hloc, hout, hsent, ?_⟩, log.header⟩
  dsimp only
  rw [hread, if_neg (by simp), List.append_nil]
  rfl

/-- A local write takes the bytes of its request. -/
theorem callLocalWrite_eq (hm : IsRequest r s.initiator.trans) (hwrite : r.type = .remoteWrite)
    (hlen : r.data.length ≤ s.initiator.buf.length) (hdata : s.initiator.buf.take r.data.length = r.data) :
    s.callLocalWrite = .ok { s with
      initiator := { s.initiator with point := .busy }
      locals := s.locals ++ [r.localCall] } := by
  have hcall : r.localCall = .localWrite r.address r.data.length r.data := by
    unfold Request.localCall
    rw [hwrite]
  unfold callLocalWrite
  dsimp only
  rw [hm.size, if_pos hlen, hm.address, hdata, hcall]

/-- An initiator that has read a request serves it in step. -/
theorem fine_dispatch (fresh : ℕ → UInt8) (hs : Sized s) (log : Open s r true false []) (ht : TargetAt s r w)
    (htrans : s.initiator.trans = s.target.mRequest)
    (hdown : s.toInitiator = if w then [] else requestRest r) (hup : s.toTarget = []) :
    Fine (s.dispatch fresh) := by
  have hprealloc : preallocSize = 16 := rfl
  have hm : IsRequest r s.initiator.trans := htrans ▸ log.header
  obtain ⟨hbuf, hbufSize⟩ := le_getBuf fresh hs.buf r.size_lt
  obtain ⟨htrans', hresp', -⟩ := getBuf_frame fresh r.data.length s.initiator
  unfold dispatch
  dsimp only
  rw [hm.type, hm.size, hm.address]
  generalize hi : getBuf fresh r.data.length s.initiator = i at hbuf hbufSize htrans' hresp'
  have hsized (b : List UInt8) (hb : i.mBufSize ≤ b.length) (p : InitiatorPoint) :
      Sized { s with initiator := { i with buf := b, point := p } } :=
    ⟨hs.mRequest, hs.mResponse, (congrArg List.length htrans').trans hs.trans,
      (congrArg List.length hresp').trans hs.resp, hb⟩
  cases htype : r.type with
  | remoteRead =>
    have hw : w = false := by
      cases w with
      | false => rfl
      | true => exact absurd (ht.long rfl).1 (by simp [htype])
    subst hw
    have hcall : r.localCall = .localRead r.address r.data.length := by
      unfold Request.localCall
      rw [htype]
    rw [if_pos rfl, if_pos hbuf, ← hcall]
    have hs' := hsized i.buf hbufSize .busy
    refine ⟨⟨hs'.mRequest, hs'.mResponse, hs'.trans, hs'.resp, hs'.buf⟩, ?_⟩
    refine .busy r (log.served { i with point := .busy } s.toInitiator) ht.point rfl
      (htrans'.trans htrans) ?_ hup
    rw [requestRest_eq_nil (by simp [htype])] at hdown
    exact hdown
  | remoteWrite =>
    have hcopy : (r.data.take preallocSize).length ≤ r.data.length := List.length_take_le' _ _
    rw [if_neg (by decide), if_pos rfl, hm.data htype, copyTo_ok (by omega)]
    change Fine (if preallocSize < r.data.length then _ else _)
    have hpatched : (patch 0 (r.data.take preallocSize) i.buf).length = i.buf.length :=
      length_patch (by omega)
    have htake := take_patch (b := r.data.take preallocSize) (Nat.zero_le i.buf.length)
    rw [Nat.zero_add, List.take_zero, List.nil_append] at htake
    split
    · rename_i hlong
      have hlen : (r.data.take preallocSize).length = preallocSize := List.length_take_of_le hlong.le
      rw [hlen] at htake
      refine ⟨hsized _ (by omega) _, ?_⟩
      refine .received r w ⟨log.log, log.header⟩ ⟨ht.point, ht.long⟩ rfl (htrans'.trans htrans) htype hlong
        (by dsimp only; omega) htake ?_ hup
      exact hdown.trans (by rw [requestRest, if_pos htype])
    · rename_i hshort
      have hshort := Nat.le_of_not_lt hshort
      have hall : r.data.take preallocSize = r.data := List.take_of_length_le hshort
      rw [hall] at hpatched htake ⊢
      have hw : w = false := by
        cases w with
        | false => rfl
        | true => exact absurd (ht.long rfl).2 (by omega)
      subst hw
      have hm' : IsRequest r i.trans := htrans'.symm ▸ hm
      rw [callLocalWrite_eq hm' htype (by dsimp only; omega) htake]
      have hs' := hsized (patch 0 r.data i.buf) (by omega) .busy
      refine ⟨⟨hs'.mRequest, hs'.mResponse, hs'.trans, hs'.resp, hs'.buf⟩, ?_⟩
      refine .busy r (log.served _ s.toInitiator) ht.point rfl (htrans'.trans htrans) ?_ hup
      refine hdown.trans ((if_neg (by simp)).trans (requestRest_eq_nil fun hlong => ?_))
      omega

/-- A read of the initiator that returns all bytes keeps the parties in step. -/
theorem fine_initiatorRead (fresh : ℕ → UInt8) (hs : Sized s) (h : Phase s) :
    Fine (s.initiatorRead fresh s.initiatorAsks) := by
  have hprealloc : preallocSize = 16 := rfl
  -- Where the stream is empty, the initiator is blocked.
  have hempty (hdown : s.toInitiator = []) : Fine (s.initiatorRead fresh s.initiatorAsks) := by
    unfold initiatorRead
    rw [hdown]
    split
    · rw [readBytes_nil]
      exact rfl
    · rw [readBytes_nil]
      exact rfl
    · exact rfl
  cases h with
  | idle log ht hi hdown hup => exact hempty hdown
  | sent r w log ht hi hdown hup =>
    have hasks : s.initiatorAsks = RemoteTransaction.sizeof := by
      unfold initiatorAsks
      rw [hi]
    unfold initiatorRead
    rw [hi, hasks, hdown]
    dsimp only
    rw [readBytes_append (by decide) log.header.length]
    change Fine (dispatch fresh { s with
      initiator := { s.initiator with trans := patch 0 s.target.mRequest s.initiator.trans }
      toInitiator := if w then [] else requestRest r
      headersRead := s.headersRead ++ [patch 0 s.target.mRequest s.initiator.trans] })
    rw [patch_zero (log.header.length.trans hs.trans.symm)]
    refine fine_dispatch fresh ⟨hs.mRequest, hs.mResponse, hs.mRequest, hs.resp, hs.buf⟩
      (log.headerRead _ _) ⟨ht.point, ht.long⟩ rfl rfl hup
  | received r w log ht hi htrans hwrite hlong hbuf hdata hdown hup =>
    cases w with
    | true => exact hempty hdown
    | false =>
      have hm : IsRequest r s.initiator.trans := htrans ▸ log.header
      have hasks : s.initiatorAsks = r.data.length - preallocSize := by
        unfold initiatorAsks
        rw [hi]
        dsimp only
        rw [hm.size]
      have hdrop : (r.data.drop preallocSize).length = r.data.length - preallocSize := List.length_drop
      have hstream : s.toInitiator = r.data.drop preallocSize ++ [] := by
        rw [hdown, if_neg (by simp), List.append_nil]
      have htake := take_patch (b := r.data.drop preallocSize)
        (show preallocSize ≤ s.initiator.buf.length by omega)
      rw [hdata, List.take_append_drop, hdrop, Nat.add_sub_cancel' hlong.le] at htake
      have hpatched : (patch preallocSize (r.data.drop preallocSize) s.initiator.buf).length =
          s.initiator.buf.length := length_patch (by omega)
      have hbufSize := hs.buf
      unfold initiatorRead
      rw [hi, hasks, hstream]
      dsimp only
      rw [hm.size, readBytes_append (by omega) hdrop]
      change Fine (copyTo preallocSize (r.data.drop preallocSize) s.initiator.buf >>= _)
      rw [copyTo_ok (by omega)]
      have hcall := callLocalWrite_eq (s := { s with
        initiator :=
          { s.initiator with buf := patch preallocSize (r.data.drop preallocSize) s.initiator.buf }
        toInitiator := [] }) hm hwrite (by dsimp only; omega) htake
      change Fine (callLocalWrite _)
      rw [hcall]
      refine ⟨⟨hs.mRequest, hs.mResponse, hs.trans, hs.resp, by dsimp only; omega⟩, ?_⟩
      exact .busy r (log.served _ []) ht.point rfl htrans rfl hup
  | busy r log ht hi htrans hdown hup => exact hempty hdown
  | answered r c w log ht hi hresp hdown hup => exact hempty hdown
  | returning r c w data log ht hi hresp hread hok hlong hlength hdata hdown hup => exact hempty hdown

/-- The completion of a request marks it as answered. -/
theorem Open.answered (log : Open s r true true []) (i : Initiator) (up : List UInt8) :
    Open { s with initiator := i, toTarget := up, completions := s.completions ++ [c] } r true true [c] := by
  obtain ⟨rs, cs, hs, hlen, hreq, hcompl, hloc, hout, hsent, hread⟩ := log.log
  refine ⟨⟨rs, cs, hs, hlen, hreq, ?_, hloc, hout, hsent, hread⟩, log.header⟩
  dsimp only
  rw [hcompl, List.append_nil]

/-- While a local access is under way, the request waits for its completion and nothing is on the
channels. -/
theorem Phase.of_busy (h : Phase s) (hp : s.initiator.point = .busy) : ∃ r, Open s r true true [] ∧
    s.target.point = .awaiting r ∧ s.initiator.trans = s.target.mRequest ∧ s.toInitiator = [] ∧
    s.toTarget = [] := by
  cases h with
  | idle log ht hi => exact absurd (hi.symm.trans hp) (by simp)
  | sent r w log ht hi => exact absurd (hi.symm.trans hp) (by simp)
  | received r w log ht hi => exact absurd (hi.symm.trans hp) (by simp)
  | busy r log ht hi htrans hdown hup => exact ⟨r, log, ht, htrans, hdown, hup⟩
  | answered r c w log ht hi => exact absurd (hi.point.symm.trans hp) (by cases w <;> simp)
  | returning r c w data log ht hi => exact absurd (hi.point.symm.trans hp) (by cases w <;> simp)

/-- The end of a local read keeps the parties in step. -/
theorem fine_completeRead (hs : Sized s) (h : Phase s) (c : Completion) : Fine (s.completeRead c) := by
  have hprealloc : preallocSize = 16 := rfl
  unfold completeRead
  dsimp only
  split
  · rename_i hbusy
    obtain ⟨hp, htype, hlen⟩ := hbusy
    obtain ⟨r, log, ht, htrans, hdown, hup⟩ := h.of_busy hp
    have hm : IsRequest r s.initiator.trans := htrans ▸ log.header
    have hread : r.type = .remoteRead := by
      rw [hm.type] at htype
      cases hr : r.type with
      | remoteRead => rfl
      | remoteWrite =>
        rw [hr] at htype
        exact absurd htype (by decide)
    rw [hm.size] at hlen ⊢
    have hn : (if c.type.toNat = remoteReadOk then r.data.length else 0) = responseSize r c := by
      unfold responseSize
      simp [hread]
    have hsize := r.size_lt
    rw [hn]
    have hresp : IsResponse c (responseSize r c) (responseBytes c (responseSize r c) s.initiator.resp) := by
      refine isResponse_responseBytes c ?_ (fun hok => ?_) hs.resp
      · rw [← hn]
        split <;> omega
      · rw [← hn, if_pos hok, hlen]
    have hrest : slice preallocSize (responseSize r c - preallocSize) c.data = responseRest r c := by
      unfold responseSize responseRest slice
      split
      · exact List.take_of_length_le (by rw [List.length_drop, hlen])
      · exact List.take_zero
    refine ⟨⟨hs.mRequest, hs.mResponse, hs.trans, hresp.length, hs.buf⟩, ?_⟩
    refine .answered r c (decide (preallocSize < responseSize r c)) (log.answered _ _) ht
      ⟨?_, fun _ => hlen, ?_⟩ hresp hdown ?_
    · simp only [hrest, decide_eq_true_eq]
    · rw [decide_eq_false_iff_not, ← hrest]
      by_cases hlong : preallocSize < responseSize r c
      · right
        intro hnil
        have hzero := congrArg List.length hnil
        rw [length_slice (by rw [← hn] at hlong ⊢; split at hlong <;> split <;> omega)] at hzero
        exact absurd hzero (by simp; omega)
      · exact .inl hlong
    · dsimp only
      rw [hup, List.nil_append]
      by_cases hlong : preallocSize < responseSize r c
      · rw [if_pos (decide_eq_true hlong), List.append_nil]
      · rw [if_neg (by simpa using hlong), ← hrest, Nat.sub_eq_zero_of_le (Nat.le_of_not_lt hlong)]
        exact (List.append_nil _).symm
  · exact rfl

/-- The end of a local write keeps the parties in step. -/
theorem fine_completeWrite (hs : Sized s) (h : Phase s) (type : UInt32) : Fine (s.completeWrite type) := by
  unfold completeWrite
  dsimp only
  split
  · rename_i hbusy
    obtain ⟨hp, htype⟩ := hbusy
    obtain ⟨r, log, ht, htrans, hdown, hup⟩ := h.of_busy hp
    have hm : IsRequest r s.initiator.trans := htrans ▸ log.header
    have hwrite : r.type ≠ .remoteRead := by
      intro hr
      rw [hm.type, hr] at htype
      exact absurd htype (by decide)
    have hn : responseSize r ⟨type, []⟩ = 0 := if_neg fun hread => hwrite hread.1
    have hrest : responseRest r ⟨type, []⟩ = [] := if_neg fun hread => hwrite hread.1
    have hbytes : patch 8 (leBytes 8 0) (patch 0 (leBytes 4 type.toNat) s.initiator.resp) =
        responseBytes ⟨type, []⟩ 0 s.initiator.resp := by
      unfold responseBytes
      simp [patch_nil]
    have hresp : IsResponse ⟨type, []⟩ 0 (responseBytes ⟨type, []⟩ 0 s.initiator.resp) :=
      isResponse_responseBytes _ (by decide) (fun _ => Nat.zero_le _) hs.resp
    rw [hbytes]
    refine ⟨⟨hs.mRequest, hs.mResponse, hs.trans, hresp.length, hs.buf⟩, ?_⟩
    refine .answered r ⟨type, []⟩ false (log.answered _ _) ht ⟨rfl, fun hr => absurd hr hwrite, .inl rfl⟩
      ?_ hdown ?_
    · rw [hn]
      exact hresp
    · dsimp only
      rw [hup, hrest]
      simp
  · exact rfl

/-- An initiator that has data to write writes that of the last response. -/
theorem InitiatorAt.eq_of_responding {rest : List UInt8} (h : InitiatorAt s r c w)
    (hp : s.initiator.point = .responding rest) : rest = responseRest r c ∧ w = true := by
  have hpoint := h.point
  rw [hp] at hpoint
  cases w with
  | false => cases hpoint
  | true =>
    cases hpoint
    exact ⟨rfl, rfl⟩

/-- Sending the data of a response keeps the parties in step. -/
theorem fine_initiatorWrite (hs : Sized s) (h : Phase s) : Fine s.initiatorWrite := by
  unfold initiatorWrite
  split
  · rename_i rest hp
    refine ⟨⟨hs.mRequest, hs.mResponse, hs.trans, hs.resp, hs.buf⟩, ?_⟩
    cases h with
    | idle log ht hi => exact absurd (hi.symm.trans hp) (by simp)
    | sent r w log ht hi => exact absurd (hi.symm.trans hp) (by simp)
    | received r w log ht hi => exact absurd (hi.symm.trans hp) (by simp)
    | busy r log ht hi => exact absurd (hi.symm.trans hp) (by simp)
    | answered r c w log ht hi hresp hdown hup =>
      obtain ⟨rfl, rfl⟩ := hi.eq_of_responding hp
      refine .answered r c false ⟨log.log, log.header⟩ ht ⟨rfl, hi.length, .inl rfl⟩ hresp hdown ?_
      dsimp only
      rw [hup, if_pos rfl, List.append_nil, if_neg (by simp)]
    | returning r c w data log ht hi hresp hread hok hlong hlength hdata hdown hup =>
      obtain ⟨rfl, rfl⟩ := hi.eq_of_responding hp
      refine .returning r c false data ⟨log.log, log.header⟩ ht ⟨rfl, hi.length, .inl rfl⟩ hresp hread hok
        hlong hlength hdata hdown ?_
      dsimp only
      rw [hup, if_pos rfl, List.nil_append, if_neg (by simp)]
  · exact rfl

/-! ## Runs -/

/-- The two sides are in step in every phase. -/
theorem Phase.inStep (h : Phase s) : InStep s := by
  have hopen {r : Request} {read served : Bool} {answer : List Completion}
      (log : Open s r read served answer) : InStep s := by
    obtain ⟨rs, cs, hs, hlen, hreq, hcompl, hloc, hout, hsent, hread⟩ := log.log
    refine ⟨?_, ?_, ?_⟩
    · rw [hloc, hreq, List.map_append, List.prefix_append_right_inj]
      cases served with
      | false => exact List.nil_prefix
      | true => exact List.prefix_rfl
    · rw [hout, hreq, hcompl, List.zipWith_append hlen.symm]
      exact List.prefix_append _ _
    · rw [hread, hsent, List.prefix_append_right_inj]
      cases read with
      | false => exact List.nil_prefix
      | true => exact List.prefix_rfl
  cases h with
  | idle log =>
    refine ⟨?_, ?_, ?_⟩
    · exact log.locals ▸ List.prefix_rfl
    · exact log.outcomes ▸ List.prefix_rfl
    · exact log.headers ▸ List.prefix_rfl
  | sent r w log => exact hopen log
  | received r w log => exact hopen log
  | busy r log => exact hopen log
  | answered r c w log => exact hopen log
  | returning r c w data log => exact hopen log

/-- One action whose read, if it is one, returns all bytes keeps the parties in step. -/
theorem step_fine (fresh : ℕ → UInt8) {a : LinkAction} (h : Sized s ∧ Phase s) (ha : s.ReadsAll a) :
    wp (step fresh a) (fun _ t => Sized t ∧ Phase t) (fun e _ => e = .blocked) s := by
  obtain ⟨hs, h⟩ := h
  have hfine : Fine (s.perform fresh a) := by
    cases a with
    | request r => exact fine_request hs h r
    | targetWrite => exact fine_targetWrite hs h
    | targetRead n =>
      obtain rfl : n = s.targetAsks := ha
      exact fine_targetRead hs h
    | initiatorRead n =>
      obtain rfl : n = s.initiatorAsks := ha
      exact fine_initiatorRead fresh hs h
    | completeRead c => exact fine_completeRead hs h c
    | completeWrite type => exact fine_completeWrite hs h type
    | initiatorWrite => exact fine_initiatorWrite hs h
  unfold wp step
  cases hrun : s.perform fresh a with
  | ok t =>
    rw [hrun] at hfine
    exact hfine
  | error e =>
    rw [hrun] at hfine
    exact hfine

/-- After their construction the parties are in step. -/
theorem init_fine (fresh : ℕ → UInt8) {m : Memory} (hm : m.mBufSize ≤ m.buf.length) :
    Sized (init fresh m) ∧ Phase (init fresh m) := by
  obtain ⟨htrans, hresp, hpoint⟩ :=
    getBuf_frame fresh 8 ⟨.polling, m.trans, m.resp, m.mBufSize, m.buf⟩
  have hbuf := (le_getBuf fresh (n := 8) (i := ⟨.polling, m.trans, m.resp, m.mBufSize, m.buf⟩) hm
    (by decide)).2
  refine ⟨⟨m.mRequest_length, m.mResponse_length, ?_, ?_, hbuf⟩, .idle ⟨rfl, rfl, rfl, rfl⟩ rfl hpoint rfl rfl⟩
  · exact (congrArg List.length htrans).trans m.trans_length
  · exact (congrArg List.length hresp).trans m.resp_length

/-- In every run whose reads return as many bytes as they are asked for, the two sides stay in step, and
no action fails other than for want of bytes. -/
theorem in_step (fresh : ℕ → UInt8) {m : Memory} (hm : m.mBufSize ≤ m.buf.length) {acts : List LinkAction}
    (hacts : Along (step fresh) ReadsAll (init fresh m) acts) :
    wp (acts.forM (step fresh)) (fun _ => InStep) (fun e _ => e = .blocked) (init fresh m) :=
  (hacts.wp_forM (fun _ _ _ h ha => step_fine fresh h ha) (init_fine fresh hm)).mono fun _ _ h => h.2.inStep

/-- Memory that is all zero. -/
def zeroed : Memory where
  mRequest := List.replicate 40 0
  mResponse := List.replicate 32 0
  trans := List.replicate 40 0
  resp := List.replicate 32 0
  mBufSize := 0
  buf := []
  mRequest_length := rfl
  mResponse_length := rfl
  trans_length := rfl
  resp_length := rfl

/-- A write and a read of 20 bytes, each with data beyond its header. -/
def writeThenRead : List LinkAction :=
  [.request ⟨.remoteWrite, 64, List.replicate 20 7, by decide, by decide⟩, .initiatorRead 40, .targetWrite,
    .initiatorRead 4, .completeWrite 1, .targetRead 32,
    .request ⟨.remoteRead, 64, List.replicate 20 0, by decide, by decide⟩, .initiatorRead 40,
    .completeRead ⟨0, List.replicate 20 9⟩, .targetRead 32, .initiatorWrite, .targetRead 4]

/-- Both requests go through. -/
theorem in_step_writeThenRead :
    wp (writeThenRead.forM (step fun _ => 0)) (fun _ => InStep) (fun e _ => e = .blocked)
      (init (fun _ => 0) zeroed) := by
  have hm : zeroed.mBufSize ≤ zeroed.buf.length := Nat.le_refl 0
  refine in_step (fun _ => 0) hm ?_
  iterate 12 refine .cons (by decide +kernel) ?_
  trivial

/-- A read of the first byte of a header: the local write is one of no bytes to address 0. -/
theorem out_of_step : ¬ ∀ (fresh : ℕ → UInt8) (m : Memory), m.mBufSize ≤ m.buf.length →
    ∀ (acts : List LinkAction) (s : Link), acts.forM (step fresh) (init fresh m) = .ok ⟨⟩ s → InStep s := by
  intro hclaim
  have hlocals := (hclaim (fun _ => 0) zeroed (Nat.le_refl 0)
    [.request ⟨.remoteWrite, 64, [7], by decide, by decide⟩, .initiatorRead 1] _
    (eq_ok_endState (by decide +kernel))).locals
  revert hlocals
  decide +kernel

end Link

end Vpsim.Peripherals
