import ReimsVgpu.Library.LittleEndian

/-!
# The suspend blob

The device state a suspend hands the host, and a resume reads back: a header, and sections of a tag,
a payload's length and the payload. A refusal logs one warning and answers an error.

Positions are natural numbers: a slice has less than `2 ^ 63` bytes, so that no sum of the source
saturates and its checked sum is never none.

## Main definitions

* `SuspendState`, `SuspendState.serialize`, `SuspendState.parse`.
* `SuspendBlob.readSection`, `SuspendBlob.readSections`: one turn of the loop over the sections,
  and the loop.
* `SuspendBlob.IsRegisters`, `SuspendBlob.IsDeviceInfo`: the payloads a resume accepts.

## Main results

* `SuspendBlob.parse_eq_ok_iff`: what parses to a state.
* `SuspendBlob.blob_format`: what is written parses back; the blobs that parse; and the errors.
-/

namespace ReimsVgpu.Guest

open LittleEndian

/-- `NsErrorText`. -/
structure NsErrorText where
  domain : String
  code : ℤ
  description : String
  deriving DecidableEq, Repr

/-- `KeyValuePair`. -/
structure KeyValuePair where
  key : UInt32
  value : UInt32
  deriving DecidableEq, Repr

/-- `SuspendDeviceState`: the device's registers a suspend saves. -/
structure SuspendDeviceState where
  rootPageNumber : UInt32 := 0
  binaryVersion : UInt32 := 0
  fifoBasePage : UInt32 := 0
  fifoEnabled : UInt32 := 0
  fifoLength : UInt32 := 0
  fifoWritten : UInt32 := 0
  fifoRead : UInt32 := 0
  fifoStart : UInt32 := 0
  interruptDisplay : UInt32 := 0
  interruptStamp : UInt32 := 0
  interruptFault : UInt32 := 0
  efiEnabled : UInt32 := 0
  efiStart : UInt32 := 0
  efiLength : UInt32 := 0
  efiDepth : UInt32 := 0
  efiMode : UInt32 := 0
  efiStride : UInt32 := 0
  displayPortCount : UInt32 := 0
  fifoFaultOffset : UInt32 := 0
  displayPortConnectionTypes : UInt32 := 0
  deriving DecidableEq, Repr

namespace SuspendDeviceState

/-- `to_words`. -/
def toWords (r : SuspendDeviceState) : List UInt32 :=
  [r.rootPageNumber, r.binaryVersion, r.fifoBasePage, r.fifoEnabled, r.fifoLength, r.fifoWritten,
    r.fifoRead, r.fifoStart, r.interruptDisplay, r.interruptStamp, r.interruptFault, r.efiEnabled,
    r.efiStart, r.efiLength, r.efiDepth, r.efiMode, r.efiStride, r.displayPortCount,
    r.fifoFaultOffset, r.displayPortConnectionTypes]

/-- `from_words`, of as many words as there are registers. -/
def fromWords : List UInt32 → Option SuspendDeviceState
  | [rootPageNumber, binaryVersion, fifoBasePage, fifoEnabled, fifoLength, fifoWritten, fifoRead,
      fifoStart, interruptDisplay, interruptStamp, interruptFault, efiEnabled, efiStart, efiLength,
      efiDepth, efiMode, efiStride, displayPortCount, fifoFaultOffset,
      displayPortConnectionTypes] =>
    some
      { rootPageNumber, binaryVersion, fifoBasePage, fifoEnabled, fifoLength, fifoWritten,
        fifoRead, fifoStart, interruptDisplay, interruptStamp, interruptFault, efiEnabled, efiStart,
        efiLength, efiDepth, efiMode, efiStride, displayPortCount, fifoFaultOffset,
        displayPortConnectionTypes }
  | _ => none

end SuspendDeviceState

/-- `SuspendState`: what a suspend saves. -/
structure SuspendState where
  registers : SuspendDeviceState := {}
  deviceInfoMaxKey : Int32 := 0
  deviceInfo : List KeyValuePair := []
  deriving DecidableEq, Repr

/-- A refusal: the warning it logs, and the error it answers. -/
structure Refused where
  warning : String
  error : NsErrorText
  deriving DecidableEq, Repr

namespace SuspendBlob

/-- `RESUME_ERROR_DOMAIN`. -/
def resumeErrorDomain : String := "PGResumeErrorDomain"

/-- `RESUME_ERROR_INVALID_SUSPEND_STATE_VERSION`. -/
def resumeErrorInvalidSuspendStateVersion : ℤ := 1

/-- `RESUME_ERROR_INVALID_CONTENT`. -/
def resumeErrorInvalidContent : ℤ := 2

/-- `SUSPEND_STATE_MAGIC`: the bytes `RVGS`. -/
def suspendStateMagic : UInt32 := word 0x52 0x56 0x47 0x53

/-- `SUSPEND_STATE_VERSION`. -/
def suspendStateVersion : UInt32 := 1

/-- `REGISTER_WORDS`. -/
def registerWords : ℕ := 20

/-- `MAX_INFO_PAIRS`. -/
def maxInfoPairs : ℕ := 45

/-- `HEADER_SIZE`. -/
def headerSize : ℕ := 8

/-- `SECTION_HEADER_SIZE`. -/
def sectionHeaderSize : ℕ := 8

/-- `Section`: a section's tag. -/
inductive SectionTag where
  | registers
  | deviceInfo
  deriving DecidableEq, Repr

/-- `Section::try_from`. -/
def SectionTag.tryFrom (tag : UInt32) : Option SectionTag :=
  if tag = 1 then some .registers
  else if tag = 2 then some .deviceInfo
  else none

/-- `Section::tag`. -/
def SectionTag.tag : SectionTag → UInt32
  | .registers => 1
  | .deviceInfo => 2

/-- `readable_info_key`. -/
def readableInfoKey (key : UInt32) : Bool := (1 ≤ key && key ≤ 42) || key == 44

/-- `resume_error`. -/
def resumeError (code : ℤ) : NsErrorText where
  domain := resumeErrorDomain
  code
  description := s!"suspend state refused ({resumeErrorDomain} code {code})"

/-- `invalid`. -/
def invalid (why : String) : Refused where
  warning := s!"suspend state refused: {why}"
  error := resumeError resumeErrorInvalidContent

/-- A word in eight hexadecimal digits. -/
def hex (w : UInt32) : String :=
  let digits := Nat.toDigits 16 w.toNat
  "0x" ++ String.ofList (List.replicate (8 - digits.length) '0' ++ digits)

/-- `parse_registers`. -/
def parseRegisters (payload : List UInt8) : Option SuspendDeviceState :=
  if (words payload).2 = [] then SuspendDeviceState.fromWords (words payload).1 else none

/-- `parse_device_info`. -/
def parseDeviceInfo (payload : List UInt8) : Option (Int32 × List KeyValuePair) :=
  match wordAt payload 0 with
  | none => none
  | some maxKey =>
    let (chunks, rest) := pairs (payload.drop 4)
    if rest ≠ [] ∨ maxInfoPairs < chunks.length then none
    else some (maxKey.toInt32, chunks.map fun p => ⟨p.1, p.2⟩)

/-- What the sections read so far hold. -/
structure Sections where
  registers : Option SuspendDeviceState := none
  info : Option (Int32 × List KeyValuePair) := none
  deriving DecidableEq, Repr

/-- A section's payload, once it is known to lie in the blob and not to be repeated. -/
def readPayload (tag length : UInt32) (kind : SectionTag) (payload : List UInt8)
    (read : Sections) : Except Refused Sections :=
  match kind with
  | .registers =>
    match parseRegisters payload with
    | none =>
      .error (invalid s!"section {tag} is {length} bytes, not {registerWords * 4}")
    | some r => .ok { read with registers := some r }
  | .deviceInfo =>
    match parseDeviceInfo payload with
    | none =>
      .error (invalid
        s!"section {tag} is {length} bytes: not a max key and at most {maxInfoPairs} pairs")
    | some (maxKey, pairs) =>
      match pairs.find? fun p => !readableInfoKey p.key with
      | some p => .error (invalid s!"device info key {p.key} is not one a resume reads")
      | none => .ok { read with info := some (maxKey, pairs) }

/-- Whether a section was read before. -/
def repeated (kind : SectionTag) (read : Sections) : Bool :=
  match kind with
  | .registers => read.registers.isSome
  | .deviceInfo => read.info.isSome

/-- One turn of the loop over the sections: what is read, and where the next section starts. -/
def readSection (bytes : List UInt8) (pos : ℕ) (read : Sections) :
    Except Refused (Sections × ℕ) :=
  match wordAt bytes pos, wordAt bytes (pos + 4) with
  | some tag, some length =>
    let start := pos + sectionHeaderSize
    let next := start + length.toNat
    if bytes.length < next then
      .error (invalid s!"section {tag} at {pos} runs past the end ({length} bytes)")
    else
      match SectionTag.tryFrom tag with
      | none => .error (invalid s!"section {tag} at {pos} is unknown")
      | some kind =>
        if repeated kind read then
          .error (invalid s!"section {tag} at {pos} is repeated")
        else
          match readPayload tag length kind ((bytes.drop start).take length.toNat) read with
          | .error e => .error e
          | .ok read' => .ok (read', next)
  | _, _ => .error (invalid s!"the section header at {pos} runs past the end")

theorem lt_of_readSection {bytes : List UInt8} {pos next : ℕ} {read read' : Sections}
    (h : readSection bytes pos read = .ok (read', next)) : pos < next := by
  unfold readSection at h
  split at h
  · dsimp only at h
    split_ifs at h
    split at h
    · cases h
    · split_ifs at h
      split at h
      · cases h
      · injection h with h
        injection h with _ hnext
        have h8 : sectionHeaderSize = 8 := rfl
        omega
  · cases h

/-- The loop over the sections. -/
def readSections (bytes : List UInt8) (pos : ℕ) (read : Sections) : Except Refused Sections :=
  if pos < bytes.length then
    match _h : readSection bytes pos read with
    | .error e => .error e
    | .ok (read', next) => readSections bytes next read'
  else .ok read
termination_by bytes.length - pos
decreasing_by
  have := lt_of_readSection _h
  omega

end SuspendBlob

namespace SuspendState

open SuspendBlob

/-- `new`: the pairs a writer filled, up to its terminator. -/
def new (registers : SuspendDeviceState) (deviceInfoMaxKey : Int32) (written : List KeyValuePair) :
    SuspendState where
  registers
  deviceInfoMaxKey
  deviceInfo := (written.takeWhile fun p => p.key ≠ 0).take maxInfoPairs

/-- `serialize`. -/
def serialize (s : SuspendState) : List UInt8 :=
  let pairs := s.deviceInfo.take maxInfoPairs
  let registers := s.registers.toWords
  let infoLen := 4 + pairs.length * 8
  let header := [suspendStateMagic, suspendStateVersion, SectionTag.registers.tag,
    UInt32.ofNat (registers.length * 4)]
  let infoHeader := [SectionTag.deviceInfo.tag, UInt32.ofNat infoLen, s.deviceInfoMaxKey.toUInt32]
  (header ++ registers ++ infoHeader ++ pairs.flatMap fun p => [p.key, p.value]).flatMap bytes

/-- `parse`. -/
def parse (bytes : List UInt8) : Except Refused SuspendState :=
  match wordAt bytes 0, wordAt bytes 4 with
  | some magic, some version =>
    if magic ≠ suspendStateMagic then .error (invalid s!"magic {hex magic} is not ours")
    else if version ≠ suspendStateVersion then
      .error
        { warning := s!"suspend state refused: version {version} is not {suspendStateVersion}"
          error := resumeError resumeErrorInvalidSuspendStateVersion }
    else
      match readSections bytes headerSize {} with
      | .error e => .error e
      | .ok read =>
        match read.registers with
        | none => .error (invalid s!"section {SectionTag.registers.tag} is missing")
        | some registers =>
          match read.info with
          | none => .error (invalid s!"section {SectionTag.deviceInfo.tag} is missing")
          | some (deviceInfoMaxKey, deviceInfo) => .ok ⟨registers, deviceInfoMaxKey, deviceInfo⟩
  | _, _ => .error (invalid s!"{bytes.length} bytes are shorter than its header")

end SuspendState

namespace SuspendBlob

/-! ### Payloads -/

theorem fromWords_eq_some_iff {ws : List UInt32} {r : SuspendDeviceState} :
    SuspendDeviceState.fromWords ws = some r ↔ ws = r.toWords := by
  constructor
  · intro h
    unfold SuspendDeviceState.fromWords at h
    split at h
    · obtain rfl := Option.some.inj h
      rfl
    · cases h
  · rintro rfl
    rfl

/-- The payload of the registers' section. -/
def registersPayload (r : SuspendDeviceState) : List UInt8 := r.toWords.flatMap bytes

/-- The payload of the device info's section. -/
def deviceInfoPayload (maxKey : Int32) (ps : List KeyValuePair) : List UInt8 :=
  bytes maxKey.toUInt32 ++ ps.flatMap fun p => bytes p.key ++ bytes p.value

theorem parseRegisters_eq_some_iff {payload : List UInt8} {r : SuspendDeviceState} :
    parseRegisters payload = some r ↔ payload = registersPayload r := by
  rw [parseRegisters, registersPayload, ← words_eq_iff, Prod.ext_iff]
  split_ifs with hrest
  · rw [fromWords_eq_some_iff]
    exact ⟨fun h => ⟨h, hrest⟩, And.left⟩
  · exact ⟨nofun, fun h => absurd h.2 hrest⟩

theorem flatMap_pairBytes (chunks : List (UInt32 × UInt32)) :
    chunks.flatMap pairBytes =
      (chunks.map fun p => (⟨p.1, p.2⟩ : KeyValuePair)).flatMap
        fun p => bytes p.key ++ bytes p.value := by
  rw [List.flatMap_map]
  rfl

/-- Pairs as the library has them. -/
theorem map_pairs (ps : List KeyValuePair) :
    (ps.map fun p => (p.key, p.value)).map (fun p => (⟨p.1, p.2⟩ : KeyValuePair)) = ps := by
  rw [List.map_map]
  exact List.map_id _

theorem parseDeviceInfo_eq_some_iff {payload : List UInt8} {maxKey : Int32}
    {ps : List KeyValuePair} :
    parseDeviceInfo payload = some (maxKey, ps) ↔
      ps.length ≤ maxInfoPairs ∧ payload = deviceInfoPayload maxKey ps := by
  constructor
  · intro h
    unfold parseDeviceInfo at h
    split at h
    · cases h
    · rename_i key hkey
      dsimp only at h
      split_ifs at h with hbad
      obtain ⟨rfl, rfl⟩ := Prod.mk.inj (Option.some.inj h)
      obtain ⟨hrest, hlen⟩ := not_or.mp hbad
      have hchunks : payload.drop 4 = (pairs (payload.drop 4)).1.flatMap pairBytes := by
        rw [← pairs_eq_iff, Prod.ext_iff]
        exact ⟨rfl, not_not.mp hrest⟩
      refine ⟨by rw [List.length_map]; omega, ?_⟩
      rw [deviceInfoPayload, UInt32.toUInt32_toInt32, ← flatMap_pairBytes, ← hchunks]
      exact drop_of_wordAt hkey
  · rintro ⟨hlen, rfl⟩
    have hkey : wordAt (deviceInfoPayload maxKey ps) 0 = some maxKey.toUInt32 :=
      wordAt_append [] _ _
    have hpairs : pairs ((deviceInfoPayload maxKey ps).drop 4) =
        (ps.map fun p => (p.key, p.value), []) := by
      rw [pairs_eq_iff, flatMap_pairBytes, map_pairs]
      rfl
    simp only [parseDeviceInfo, hkey, hpairs, List.length_map]
    rw [if_neg (not_or.mpr ⟨not_not.mpr rfl, hlen.not_gt⟩), map_pairs, Int32.toInt32_toUInt32]

/-! ### Sections -/

/-- A section: its tag, its payload's length, and the payload. -/
def framed (kind : SectionTag) (payload : List UInt8) : List UInt8 :=
  bytes kind.tag ++ (bytes (UInt32.ofNat payload.length) ++ payload)

/-- A payload that is accepted, and what it adds to what was read. -/
inductive Reads : SectionTag → List UInt8 → Sections → Sections → Prop
  | registers {read : Sections} (r : SuspendDeviceState) (hnone : read.registers = none) :
    Reads .registers (registersPayload r) read { read with registers := some r }
  | deviceInfo {read : Sections} (maxKey : Int32) (ps : List KeyValuePair)
    (hnone : read.info = none) (hlen : ps.length ≤ maxInfoPairs)
    (hkeys : ∀ p ∈ ps, readableInfoKey p.key) :
    Reads .deviceInfo (deviceInfoPayload maxKey ps) read { read with info := some (maxKey, ps) }

theorem reads_iff (tag length : UInt32) {kind : SectionTag} {payload : List UInt8}
    {read read' : Sections} :
    repeated kind read = false ∧ readPayload tag length kind payload read = .ok read' ↔
      Reads kind payload read read' := by
  constructor
  · rintro ⟨hrep, h⟩
    cases kind with
    | registers =>
      unfold readPayload at h
      dsimp only at h
      split at h
      · cases h
      · rename_i r hr
        injection h with h
        subst h
        rw [parseRegisters_eq_some_iff] at hr
        subst hr
        exact .registers r (by simpa [repeated] using hrep)
    | deviceInfo =>
      unfold readPayload at h
      dsimp only at h
      split at h
      · cases h
      · rename_i maxKey ps hinfo
        split at h
        · cases h
        · rename_i hfind
          injection h with h
          subst h
          rw [parseDeviceInfo_eq_some_iff] at hinfo
          obtain ⟨hlen, rfl⟩ := hinfo
          refine .deviceInfo maxKey ps (by simpa [repeated] using hrep) hlen ?_
          simpa [List.find?_eq_none] using hfind
  · intro h
    cases h with
    | registers r hnone =>
      have hr := parseRegisters_eq_some_iff.mpr (rfl : registersPayload r = registersPayload r)
      simp only [repeated, hnone, readPayload, hr]
      exact ⟨rfl, trivial⟩
    | deviceInfo maxKey ps hnone hlen hkeys =>
      have hinfo := parseDeviceInfo_eq_some_iff.mpr
        ⟨hlen, (rfl : deviceInfoPayload maxKey ps = deviceInfoPayload maxKey ps)⟩
      have hfind : ps.find? (fun p => !readableInfoKey p.key) = none := by
        simpa [List.find?_eq_none] using hkeys
      simp only [repeated, hnone, readPayload, hinfo, hfind]
      exact ⟨rfl, trivial⟩

theorem tryFrom_eq_some_iff {tag : UInt32} {kind : SectionTag} :
    SectionTag.tryFrom tag = some kind ↔ tag = kind.tag := by
  constructor
  · intro h
    unfold SectionTag.tryFrom at h
    split_ifs at h with h1 h2
    · obtain rfl := Option.some.inj h
      exact h1
    · obtain rfl := Option.some.inj h
      exact h2
  · rintro rfl
    cases kind <;> rfl

/-- One turn of the loop reads a section that lies whole in the blob. -/
theorem readSection_eq_ok_iff {b : List UInt8} {pos next : ℕ} {read read' : Sections} :
    readSection b pos read = .ok (read', next) ↔
      ∃ kind payload, payload.length < 2 ^ 32 ∧ next = pos + 8 + payload.length ∧
        b.drop pos = framed kind payload ++ b.drop next ∧ Reads kind payload read read' := by
  constructor
  · intro h
    unfold readSection at h
    split at h
    · rename_i tag length htag hlength
      dsimp only at h
      split_ifs at h with hend
      split at h
      · cases h
      · rename_i kind hkind
        split_ifs at h with hrep
        split at h
        · cases h
        · rename_i read₁ hread
          injection h with h
          obtain ⟨rfl, rfl⟩ := Prod.mk.inj h
          rw [tryFrom_eq_some_iff] at hkind
          subst hkind
          rw [show sectionHeaderSize = 8 from rfl] at hend hread ⊢
          have hpayload : ((b.drop (pos + 8)).take length.toNat).length = length.toNat := by
            rw [List.length_take, List.length_drop]
            omega
          have hlt := length.toNat_lt
          refine ⟨kind, (b.drop (pos + 8)).take length.toNat, by omega, by omega, ?_,
            (reads_iff _ _).mp ⟨by simpa using hrep, hread⟩⟩
          rw [drop_of_wordAt htag, drop_of_wordAt hlength, framed, hpayload, UInt32.ofNat_toNat,
            ← List.drop_drop (i := length.toNat) (j := pos + 8)]
          simp only [List.append_assoc, List.take_append_drop]
    · cases h
  · rintro ⟨kind, payload, hlt, rfl, hdrop, hreads⟩
    obtain ⟨hrep, hread⟩ := (reads_iff kind.tag (UInt32.ofNat payload.length)).mpr hreads
    have hnat : (UInt32.ofNat payload.length).toNat = payload.length :=
      UInt32.toNat_ofNat_of_lt' hlt
    rw [framed, List.append_assoc, List.append_assoc] at hdrop
    have hdrop4 := drop_add_four hdrop
    have hdrop8 : b.drop (pos + 8) = payload ++ b.drop (pos + 8 + payload.length) :=
      drop_add_four hdrop4
    have hend : ¬ b.length < pos + 8 + payload.length := by
      have := congrArg List.length hdrop
      simp only [List.length_append, List.length_drop, length_bytes] at this
      omega
    have htake : (b.drop (pos + 8)).take payload.length = payload := by
      rw [hdrop8, List.take_left]
    have hkind : SectionTag.tryFrom kind.tag = some kind := tryFrom_eq_some_iff.mpr rfl
    simp only [readSection, wordAt_of_drop hdrop, wordAt_of_drop hdrop4,
      show sectionHeaderSize = 8 from rfl, hnat, if_neg hend, hkind, hrep, htake, hread]
    rfl

theorem framed_ne_nil (kind : SectionTag) (payload rest : List UInt8) :
    framed kind payload ++ rest ≠ [] := by
  simp [framed, bytes]

/-- What the loop reads: nothing at the end of the blob, or a section and what follows it. -/
theorem readSections_eq_ok_iff {b : List UInt8} {pos : ℕ} {read read' : Sections} :
    readSections b pos read = .ok read' ↔
      (b.drop pos = [] ∧ read' = read) ∨
      ∃ kind payload next mid, payload.length < 2 ^ 32 ∧ next = pos + 8 + payload.length ∧
        b.drop pos = framed kind payload ++ b.drop next ∧ Reads kind payload read mid ∧
        readSections b next mid = .ok read' := by
  constructor
  · intro h
    rw [readSections] at h
    split_ifs at h with hpos
    · split at h
      · cases h
      · rename_i mid next hsection
        obtain ⟨kind, payload, hlt, hnext, hdrop, hreads⟩ := readSection_eq_ok_iff.mp hsection
        exact .inr ⟨kind, payload, next, mid, hlt, hnext, hdrop, hreads, h⟩
    · injection h with h
      exact .inl ⟨List.drop_eq_nil_of_le (not_lt.mp hpos), h.symm⟩
  · rintro (⟨hdrop, rfl⟩ | ⟨kind, payload, next, mid, hlt, hnext, hdrop, hreads, h⟩)
    · rw [readSections, if_neg (not_lt.mpr (List.drop_eq_nil_iff.mp hdrop))]
    · have hpos : pos < b.length := by
        refine not_le.mp fun hle => framed_ne_nil kind payload (b.drop next) ?_
        rw [← hdrop, List.drop_eq_nil_of_le hle]
      have hsection := readSection_eq_ok_iff.mpr ⟨kind, payload, hlt, hnext, hdrop, hreads⟩
      rw [readSections, if_pos hpos]
      split
      · rename_i e herr
        rw [hsection] at herr
        cases herr
      · rename_i read₁ next₁ hok
        rw [hsection] at hok
        injection hok with hok
        obtain ⟨rfl, rfl⟩ := Prod.mk.inj hok
        exact h

/-- Whole sections one after the other, and what they add to what was read. -/
inductive ReadsAll : List UInt8 → Sections → Sections → Prop
  | nil {read : Sections} : ReadsAll [] read read
  | cons {kind : SectionTag} {payload rest : List UInt8} {read mid read' : Sections}
    (hreads : Reads kind payload read mid) (hrest : ReadsAll rest mid read') :
    ReadsAll (framed kind payload ++ rest) read read'

theorem length_registersPayload (r : SuspendDeviceState) : (registersPayload r).length = 80 := by
  rw [registersPayload, length_flatMap_bytes]
  rfl

theorem length_deviceInfoPayload (maxKey : Int32) (ps : List KeyValuePair) :
    (deviceInfoPayload maxKey ps).length = 4 + 8 * ps.length := by
  rw [deviceInfoPayload, ← map_pairs ps, ← flatMap_pairBytes, List.length_append, length_bytes,
    length_flatMap_pairBytes, List.length_map, List.length_map, List.length_map]

theorem Reads.length_lt {kind : SectionTag} {payload : List UInt8} {read read' : Sections}
    (h : Reads kind payload read read') : payload.length < 2 ^ 32 := by
  cases h with
  | registers r hnone =>
    rw [length_registersPayload]
    omega
  | deviceInfo maxKey ps hnone hlen hkeys =>
    rw [length_deviceInfoPayload]
    have : maxInfoPairs = 45 := rfl
    omega

theorem drop_framed {b rest : List UInt8} {pos : ℕ} {kind : SectionTag} {payload : List UInt8}
    (h : b.drop pos = framed kind payload ++ rest) : b.drop (pos + 8 + payload.length) = rest := by
  rw [framed, List.append_assoc, List.append_assoc] at h
  have h8 : b.drop (pos + 8) = payload ++ rest := drop_add_four (drop_add_four h)
  rw [← List.drop_drop, h8, List.drop_left]

/-- The loop reads whole sections up to the end of the blob. -/
theorem readSections_eq_ok_iff_readsAll {b : List UInt8} {pos : ℕ} {read read' : Sections} :
    readSections b pos read = .ok read' ↔ ReadsAll (b.drop pos) read read' := by
  constructor
  · intro h
    generalize hk : b.length - pos = k
    induction k using Nat.strong_induction_on generalizing pos read with
    | _ k ih =>
      obtain ⟨hdrop, rfl⟩ | ⟨kind, payload, next, mid, hlt, hnext, hdrop, hreads, hrest⟩ :=
        readSections_eq_ok_iff.mp h
      · rw [hdrop]
        exact .nil
      · have hpos : pos < b.length := by
          refine not_le.mp fun hle => framed_ne_nil kind payload (b.drop next) ?_
          rw [← hdrop, List.drop_eq_nil_of_le hle]
        rw [hdrop]
        exact .cons hreads (ih (b.length - next) (by omega) hrest rfl)
  · intro h
    generalize hrest : b.drop pos = rest at h
    induction h generalizing pos with
    | nil => exact readSections_eq_ok_iff.mpr (.inl ⟨hrest, rfl⟩)
    | cons hreads _ ih =>
      have hnext := drop_framed hrest
      refine readSections_eq_ok_iff.mpr (.inr ⟨_, _, _, _, hreads.length_lt, rfl, ?_, hreads,
        ih hnext⟩)
      rw [hrest, hnext]

/-- Once both sections were read, nothing follows. -/
theorem ReadsAll.full {l : List UInt8} {read read' : Sections} (h : ReadsAll l read read')
    (hregisters : read.registers ≠ none) (hinfo : read.info ≠ none) : l = [] ∧ read' = read := by
  cases h with
  | nil => exact ⟨rfl, rfl⟩
  | cons hreads _ =>
    cases hreads with
    | registers _ hnone => exact absurd hnone hregisters
    | deviceInfo _ _ hnone => exact absurd hnone hinfo

/-- Device info a resume reads. -/
def ReadableInfo (ps : List KeyValuePair) : Prop :=
  ps.length ≤ maxInfoPairs ∧ ∀ p ∈ ps, readableInfoKey p.key

/-- Both sections are read where they are there once each, in either order. -/
theorem readsAll_iff {l : List UInt8} {r : SuspendDeviceState} {maxKey : Int32}
    {ps : List KeyValuePair} :
    ReadsAll l {} ⟨some r, some (maxKey, ps)⟩ ↔ ReadableInfo ps ∧
      (l = framed .registers (registersPayload r) ++
          framed .deviceInfo (deviceInfoPayload maxKey ps) ∨
        l = framed .deviceInfo (deviceInfoPayload maxKey ps) ++
          framed .registers (registersPayload r)) := by
  constructor
  · intro h
    cases h with
    | cons hfirst hrest =>
      cases hfirst with
      | registers r₁ =>
        cases hrest with
        | cons hsecond hlast =>
          cases hsecond with
          | registers _ hnone => cases hnone
          | deviceInfo maxKey₁ ps₁ _ hlen hkeys =>
            obtain ⟨rfl, heq⟩ := hlast.full nofun nofun
            simp only [Sections.mk.injEq, Option.some.injEq, Prod.mk.injEq] at heq
            obtain ⟨rfl, rfl, rfl⟩ := heq
            exact ⟨⟨hlen, hkeys⟩, .inl (by rw [List.append_nil])⟩
      | deviceInfo maxKey₁ ps₁ _ hlen hkeys =>
        cases hrest with
        | cons hsecond hlast =>
          cases hsecond with
          | deviceInfo _ _ hnone => cases hnone
          | registers r₁ _ =>
            obtain ⟨rfl, heq⟩ := hlast.full nofun nofun
            simp only [Sections.mk.injEq, Option.some.injEq, Prod.mk.injEq] at heq
            obtain ⟨rfl, rfl, rfl⟩ := heq
            exact ⟨⟨hlen, hkeys⟩, .inr (by rw [List.append_nil])⟩
  · rintro ⟨⟨hlen, hkeys⟩, rfl | rfl⟩
    · refine .cons (.registers r rfl) ?_
      rw [← List.append_nil (framed .deviceInfo _)]
      exact .cons (.deviceInfo maxKey ps rfl hlen hkeys) .nil
    · refine .cons (.deviceInfo maxKey ps rfl hlen hkeys) ?_
      rw [← List.append_nil (framed .registers _)]
      exact .cons (.registers r rfl) .nil

/-! ### Blobs -/

/-- The magic and the version. -/
def header : List UInt8 := bytes suspendStateMagic ++ bytes suspendStateVersion

/-- The header, and two sections. -/
def blob (first second : List UInt8) : List UInt8 := header ++ (first ++ second)

/-- What is written for a state. -/
theorem serialize_eq {s : SuspendState} (h : s.deviceInfo.length ≤ maxInfoPairs) :
    s.serialize = blob (framed .registers (registersPayload s.registers))
      (framed .deviceInfo (deviceInfoPayload s.deviceInfoMaxKey s.deviceInfo)) := by
  have hlen : (deviceInfoPayload s.deviceInfoMaxKey s.deviceInfo).length =
      4 + s.deviceInfo.length * 8 := by
    rw [length_deviceInfoPayload, Nat.mul_comm]
  have hpairs : (s.deviceInfo.flatMap fun p => [p.key, p.value]).flatMap bytes =
      s.deviceInfo.flatMap fun p => bytes p.key ++ bytes p.value := by
    rw [List.flatMap_assoc]
    simp only [List.flatMap_cons, List.flatMap_nil, List.append_nil]
  rw [blob, framed, framed, hlen, length_registersPayload, SuspendState.serialize,
    List.take_of_length_le h]
  simp only [List.flatMap_append, hpairs]
  simp only [header, registersPayload, deviceInfoPayload, List.flatMap_cons, List.flatMap_nil,
    List.append_nil, List.append_assoc]
  rfl

/-- What parses to a state. -/
theorem parse_eq_ok_iff {b : List UInt8} {s : SuspendState} :
    SuspendState.parse b = .ok s ↔ ReadableInfo s.deviceInfo ∧
      (b = blob (framed .registers (registersPayload s.registers))
          (framed .deviceInfo (deviceInfoPayload s.deviceInfoMaxKey s.deviceInfo)) ∨
        b = blob (framed .deviceInfo (deviceInfoPayload s.deviceInfoMaxKey s.deviceInfo))
          (framed .registers (registersPayload s.registers))) := by
  constructor
  · intro h
    unfold SuspendState.parse at h
    split at h
    · rename_i magic version hmagic hversion
      split_ifs at h with hm hv
      split at h
      · cases h
      · rename_i read hread
        split at h
        · cases h
        · rename_i registers hregisters
          split at h
          · cases h
          · rename_i maxKey ps hinfo
            injection h with h
            subst h
            have hall : ReadsAll (b.drop 8) {} ⟨some registers, some (maxKey, ps)⟩ := by
              rw [← hregisters, ← hinfo]
              exact readSections_eq_ok_iff_readsAll.mp hread
            have hb : b = header ++ b.drop 8 := by
              rw [header, ← not_not.mp hm, ← not_not.mp hv, List.append_assoc,
                ← drop_of_wordAt hversion, ← drop_of_wordAt hmagic, List.drop_zero]
            obtain ⟨hreadable, hl | hl⟩ := readsAll_iff.mp hall
            · exact ⟨hreadable, .inl (hb.trans (congrArg (header ++ ·) hl))⟩
            · exact ⟨hreadable, .inr (hb.trans (congrArg (header ++ ·) hl))⟩
    · cases h
  · rintro ⟨hreadable, hb⟩
    obtain ⟨l, rfl, hl⟩ : ∃ l, b = header ++ l ∧
        ReadsAll l {} ⟨some s.registers, some (s.deviceInfoMaxKey, s.deviceInfo)⟩ := by
      rcases hb with hb | hb
      · exact ⟨_, hb, readsAll_iff.mpr ⟨hreadable, .inl rfl⟩⟩
      · exact ⟨_, hb, readsAll_iff.mpr ⟨hreadable, .inr rfl⟩⟩
    have hmagic : wordAt (header ++ l) 0 = some suspendStateMagic := by
      rw [header, List.append_assoc]
      exact wordAt_append [] _ _
    have hversion : wordAt (header ++ l) 4 = some suspendStateVersion := by
      rw [header, List.append_assoc]
      exact wordAt_append (bytes suspendStateMagic) _ _
    have hread : readSections (header ++ l) headerSize {} =
        .ok ⟨some s.registers, some (s.deviceInfoMaxKey, s.deviceInfo)⟩ :=
      readSections_eq_ok_iff_readsAll.mpr hl
    simp only [SuspendState.parse, hmagic, hversion, hread]
    rfl

/-! ### The accepted blobs -/

/-- The registers' bytes. -/
def IsRegisters (payload : List UInt8) : Prop := payload.length = 80

/-- The bytes of a max key, and of whole pairs whose keys a resume reads. -/
def IsDeviceInfo (payload : List UInt8) : Prop :=
  ∃ n ≤ 45, payload.length = 4 + 8 * n ∧
    ∀ i < n, ∃ key, wordAt payload (4 + 8 * i) = some key ∧ readableInfoKey key

theorem exists_registersPayload {payload : List UInt8} (h : IsRegisters payload) :
    ∃ r, payload = registersPayload r := by
  obtain ⟨ws, hlen, rfl⟩ := exists_words (n := 20) h
  match ws, hlen with
  | [a, b, c, d, e, f, g, i, j, k, l, m, n, o, p, q, t, u, v, w], _ =>
    exact ⟨⟨a, b, c, d, e, f, g, i, j, k, l, m, n, o, p, q, t, u, v, w⟩, rfl⟩

theorem exists_deviceInfoPayload {payload : List UInt8} (h : IsDeviceInfo payload) :
    ∃ maxKey ps, ReadableInfo ps ∧ payload = deviceInfoPayload maxKey ps := by
  obtain ⟨n, hn, hlen, hkeys⟩ := h
  obtain ⟨a, b, c, d, rest, rfl⟩ : ∃ a b c d rest, payload = a :: b :: c :: d :: rest := by
    match payload, hlen with
    | a :: b :: c :: d :: rest, _ => exact ⟨a, b, c, d, rest, rfl⟩
    | [], hlen | [_], hlen | [_, _], hlen | [_, _, _], hlen =>
      simp only [List.length_cons, List.length_nil] at hlen
      omega
  obtain ⟨chunks, hchunks, rfl⟩ : ∃ chunks : List (UInt32 × UInt32),
      chunks.length = n ∧ rest = chunks.flatMap pairBytes := by
    refine exists_pairs ?_
    simp only [List.length_cons] at hlen
    omega
  refine ⟨(word a b c d).toInt32, chunks.map fun p => ⟨p.1, p.2⟩, ⟨?_, ?_⟩, ?_⟩
  · rw [List.length_map, hchunks]
    exact hn
  · intro p hp
    obtain ⟨q, hq, rfl⟩ := List.mem_map.mp hp
    obtain ⟨i, hi, rfl⟩ := List.getElem_of_mem hq
    obtain ⟨key, hkey, hreadable⟩ := hkeys i (hchunks ▸ hi)
    have hat := wordAt_pair [a, b, c, d] chunks hi
    obtain rfl := Option.some.inj (hkey.symm.trans hat)
    exact hreadable
  · rw [deviceInfoPayload, UInt32.toUInt32_toInt32, bytes_word, ← flatMap_pairBytes]
    rfl

theorem isDeviceInfo_deviceInfoPayload {maxKey : Int32} {ps : List KeyValuePair}
    (h : ReadableInfo ps) : IsDeviceInfo (deviceInfoPayload maxKey ps) := by
  refine ⟨ps.length, h.1, length_deviceInfoPayload maxKey ps, fun i hi => ?_⟩
  refine ⟨ps[i].key, ?_, h.2 _ (List.getElem_mem hi)⟩
  have hi' : i < (ps.map fun p => (p.key, p.value)).length := by rwa [List.length_map]
  have hat := wordAt_pair (bytes maxKey.toUInt32) _ hi'
  rw [flatMap_pairBytes, map_pairs, List.getElem_map] at hat
  exact hat

/-! ### Errors -/

theorem readPayload_error {tag length : UInt32} {kind : SectionTag} {payload : List UInt8}
    {read : Sections} {e : Refused} (h : readPayload tag length kind payload read = .error e) :
    ∃ why, e = invalid why := by
  unfold readPayload at h
  split at h
  · split at h
    · injection h with h
      exact ⟨_, h.symm⟩
    · cases h
  · split at h
    · injection h with h
      exact ⟨_, h.symm⟩
    · split at h
      · injection h with h
        exact ⟨_, h.symm⟩
      · cases h

theorem readSection_error {b : List UInt8} {pos : ℕ} {read : Sections} {e : Refused}
    (h : readSection b pos read = .error e) : ∃ why, e = invalid why := by
  unfold readSection at h
  split at h
  · dsimp only at h
    split_ifs at h
    · injection h with h
      exact ⟨_, h.symm⟩
    · split at h
      · injection h with h
        exact ⟨_, h.symm⟩
      · split_ifs at h
        · injection h with h
          exact ⟨_, h.symm⟩
        · split at h
          · rename_i hpayload
            injection h with h
            exact readPayload_error (h ▸ hpayload)
          · cases h
  · injection h with h
    exact ⟨_, h.symm⟩

theorem readSections_error {b : List UInt8} {pos : ℕ} {read : Sections} {e : Refused}
    (h : readSections b pos read = .error e) : ∃ why, e = invalid why := by
  induction pos, read using readSections.induct b with
  | case1 pos read hpos e' hsection =>
    rw [readSections, if_pos hpos] at h
    split at h
    · rename_i hsection'
      injection h with h
      exact readSection_error (h ▸ hsection')
    · rename_i hsection'
      rw [hsection] at hsection'
      cases hsection'
  | case2 pos read hpos read' next hsection ih =>
    rw [readSections, if_pos hpos] at h
    split at h
    · rename_i hsection'
      rw [hsection] at hsection'
      cases hsection'
    · rename_i hsection'
      rw [hsection] at hsection'
      injection hsection' with hsection'
      obtain ⟨rfl, rfl⟩ := Prod.mk.inj hsection'
      exact ih h
  | case3 pos read hpos =>
    rw [readSections, if_neg hpos] at h
    cases h

/-- Every answer is a state, a refused content, or a refused version of a blob with the magic. -/
theorem parse_total (b : List UInt8) :
    (∃ s, SuspendState.parse b = .ok s) ∨
    (∃ why, SuspendState.parse b = .error (invalid why)) ∨
    ∃ e, SuspendState.parse b = .error e ∧
      e.error = resumeError resumeErrorInvalidSuspendStateVersion ∧
      wordAt b 0 = some suspendStateMagic ∧
      ∃ version, wordAt b 4 = some version ∧ version ≠ suspendStateVersion := by
  unfold SuspendState.parse
  split
  · rename_i magic version hmagic hversion
    split_ifs with hm hv
    · exact .inr (.inl ⟨_, rfl⟩)
    · refine .inr (.inr ⟨_, rfl, rfl, ?_, version, hversion, hv⟩)
      rw [hmagic, not_not.mp hm]
    · split
      · rename_i e he
        obtain ⟨why, rfl⟩ := readSections_error he
        exact .inr (.inl ⟨why, rfl⟩)
      · split
        · exact .inr (.inl ⟨_, rfl⟩)
        · split
          · exact .inr (.inl ⟨_, rfl⟩)
          · exact .inl ⟨_, rfl⟩
  · exact .inr (.inl ⟨_, rfl⟩)

/-- A state of accepted sections. -/
theorem exists_parse {b registers info : List UInt8} (hregisters : IsRegisters registers)
    (hinfo : IsDeviceInfo info)
    (hb : b = blob (framed .registers registers) (framed .deviceInfo info) ∨
      b = blob (framed .deviceInfo info) (framed .registers registers)) :
    ∃ s, SuspendState.parse b = .ok s ∧
      s.serialize = blob (framed .registers registers) (framed .deviceInfo info) := by
  obtain ⟨r, rfl⟩ := exists_registersPayload hregisters
  obtain ⟨maxKey, ps, hreadable, rfl⟩ := exists_deviceInfoPayload hinfo
  exact ⟨⟨r, maxKey, ps⟩, parse_eq_ok_iff.mpr ⟨hreadable, hb⟩, serialize_eq hreadable.1⟩

/-- The format of suspend blobs. A state of at most 45 pairs with keys a resume reads is read back
from what is written for it. A blob parses where it is the header and one section of each kind, in
either order, and what parses is written with the registers first. Any other blob is refused, for
its version only where it has the magic. -/
theorem blob_format :
    (∀ s : SuspendState, s.deviceInfo.length ≤ 45 →
      (∀ p ∈ s.deviceInfo, 1 ≤ p.key ∧ p.key ≤ 42 ∨ p.key = 44) →
      SuspendState.parse s.serialize = .ok s) ∧
    (∀ b, (∃ s, SuspendState.parse b = .ok s) ↔
      ∃ registers info, IsRegisters registers ∧ IsDeviceInfo info ∧
        (b = blob (framed .registers registers) (framed .deviceInfo info) ∨
          b = blob (framed .deviceInfo info) (framed .registers registers))) ∧
    (∀ b s registers info, SuspendState.parse b = .ok s → IsRegisters registers →
      IsDeviceInfo info →
      (b = blob (framed .registers registers) (framed .deviceInfo info) ∨
        b = blob (framed .deviceInfo info) (framed .registers registers)) →
      s.serialize = blob (framed .registers registers) (framed .deviceInfo info)) ∧
    ∀ b, (∃ s, SuspendState.parse b = .ok s) ∨
      ∃ e, SuspendState.parse b = .error e ∧
        (e.error = resumeError resumeErrorInvalidContent ∨
          e.error = resumeError resumeErrorInvalidSuspendStateVersion ∧
            wordAt b 0 = some suspendStateMagic ∧ wordAt b 4 ≠ some suspendStateVersion) := by
  refine ⟨fun s hlen hkeys => ?_, fun b => ⟨?_, ?_⟩, ?_, fun b => ?_⟩
  · refine parse_eq_ok_iff.mpr ⟨⟨hlen, fun p hp => ?_⟩, .inl (serialize_eq hlen)⟩
    simpa [readableInfoKey] using hkeys p hp
  · rintro ⟨s, hs⟩
    obtain ⟨hreadable, hb⟩ := parse_eq_ok_iff.mp hs
    exact ⟨_, _, length_registersPayload _, isDeviceInfo_deviceInfoPayload hreadable, hb⟩
  · rintro ⟨registers, info, hregisters, hinfo, hb⟩
    obtain ⟨s, hs, -⟩ := exists_parse hregisters hinfo hb
    exact ⟨s, hs⟩
  · intro b s registers info hs hregisters hinfo hb
    obtain ⟨s', hs', hser⟩ := exists_parse hregisters hinfo hb
    rw [hs] at hs'
    injection hs' with heq
    rw [heq, hser]
  · obtain hok | ⟨why, hwhy⟩ | ⟨e, he, herror, hmagic, version, hversion, hne⟩ := parse_total b
    · exact .inl hok
    · exact .inr ⟨_, hwhy, .inl rfl⟩
    · refine .inr ⟨e, he, .inr ⟨herror, hmagic, ?_⟩⟩
      rw [hversion]
      exact fun h => hne (Option.some.inj h)

/-- A state with two pairs is read back. -/
theorem sampleState_parses :
    SuspendState.parse
      (SuspendState.serialize ⟨{ fifoLength := 4096 }, -1, [⟨1, 7⟩, ⟨44, 0⟩]⟩) =
      .ok ⟨{ fifoLength := 4096 }, -1, [⟨1, 7⟩, ⟨44, 0⟩]⟩ :=
  blob_format.1 _ (by decide) (by decide)

end SuspendBlob

end ReimsVgpu.Guest
