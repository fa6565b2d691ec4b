import ReimsVgpu.Fifo.Thread

/-!
# The thread runs the stream's commands in order

The guest's stream is a list of well-framed commands. Whatever the interleaving of the guest's
writes, the device's stops and starts and the thread's steps, the bytes between the published count
and the thread's cursor are the part of the next command that has been read, so that a command is
either advanced over whole or read again from its first byte.

## Main definitions

* `WellFramed`, `Command.ofRaw`: a command in the stream, and as the thread reads it.
* `System.Inv`: the invariant of a run.

## Main results

* `stream_runs_in_order`: the commands run are the stream's, in order, and none that is published
  is left out.
-/

open ReimsVgpu.Memory

namespace ReimsVgpu.Fifo

/-! ### The stream -/

/-- How many barriers the header of a command in the stream declares. -/
def rawBarriers (raw : List UInt8) : ℕ :=
  (FifoCommand.ofBytes (raw.take headerLen)).barrierCount.toNat

/-- The bytes of a command the thread can frame, on a ring of `ringLength` bytes. -/
structure WellFramed (ringLength : ℕ) (raw : List UInt8) : Prop where
  length_eq : (FifoCommand.ofBytes (raw.take headerLen)).length.toNat = raw.length
  header_le : headerLen ≤ raw.length
  le_ring : raw.length ≤ ringLength
  barriers_le : rawBarriers raw * stampWaitLen ≤ raw.length - headerLen
  count_le : rawBarriers raw ≤ maxBarriers

/-- A command's bytes, cut at the end of its header and of its barriers. -/
def Command.ofRaw (raw : List UInt8) : Command where
  header := raw.take headerLen
  barriers := (raw.drop headerLen).take (rawBarriers raw * stampWaitLen)
  payload := raw.drop (headerLen + rawBarriers raw * stampWaitLen)

theorem WellFramed.frame_eq {n : ℕ} {raw : List UInt8} (h : WellFramed n raw) :
    frame (.ofBytes (raw.take headerLen)) n = .read (rawBarriers raw * stampWaitLen)
      (raw.length - headerLen - rawBarriers raw * stampWaitLen) := by
  have hlen := h.length_eq
  have hlow := h.header_le
  have hhigh := h.le_ring
  have hbarriers := h.barriers_le
  have hcount := h.count_le
  rw [rawBarriers] at hbarriers hcount
  rw [frame, hlen, if_neg (by omega)]
  dsimp only
  rw [if_neg (by omega), if_neg (by omega)]
  rfl

/-- A command cut in three is read back from its parts. -/
theorem Command.ofRaw_eq {raw header barriers payload : List UInt8}
    (happend : header ++ barriers ++ payload = raw) (hheader : header.length = headerLen)
    (hbarriers : barriers.length = rawBarriers raw * stampWaitLen) :
    Command.ofRaw raw = ⟨header, barriers, payload⟩ := by
  have htake : raw.take headerLen = header := by
    rw [← happend, List.append_assoc, ← hheader, List.take_left]
  have hdrop : raw.drop headerLen = barriers ++ payload := by
    rw [← happend, List.append_assoc, ← hheader, List.drop_left]
  rw [ofRaw, htake, hdrop, ← hbarriers, List.take_left, ← List.drop_drop, hdrop, List.drop_left]

section Stream

variable {cmds : List (List UInt8)} {k : ℕ}

/-- The stream from a command's first byte on. -/
theorem drop_flatten {raw : List UInt8} (h : cmds[k]? = some raw) :
    cmds.flatten.drop (cmds.take k).flatten.length = raw ++ (cmds.drop (k + 1)).flatten := by
  obtain ⟨hk, hget⟩ := List.getElem?_eq_some_iff.mp h
  have hsplit : cmds.flatten = (cmds.take k).flatten ++ (cmds.drop k).flatten := by
    rw [← List.flatten_append, List.take_append_drop]
  rw [hsplit, List.drop_left, List.drop_eq_getElem_cons hk, hget, List.flatten_cons]

theorem length_flatten_take_succ {raw : List UInt8} (h : cmds[k]? = some raw) :
    (cmds.take (k + 1)).flatten.length = (cmds.take k).flatten.length + raw.length := by
  rw [List.take_add_one, h, List.flatten_append, List.length_append]
  simp

theorem length_flatten_take_mono {m : ℕ} (h : k ≤ m) :
    (cmds.take k).flatten.length ≤ (cmds.take m).flatten.length := by
  have hprefix : cmds.take k <+: cmds.take m := List.take_prefix_take_left h
  obtain ⟨rest, hrest⟩ := hprefix
  rw [← hrest, List.flatten_append, List.length_append]
  exact Nat.le_add_right _ _

/-- Where bytes are left of the stream, a command begins. -/
theorem exists_command (h : (cmds.take k).flatten.length < cmds.flatten.length) :
    ∃ raw, cmds[k]? = some raw := by
  by_cases hk : k < cmds.length
  · exact ⟨cmds[k], List.getElem?_eq_getElem hk⟩
  · rw [List.take_of_length_le (by omega)] at h
    exact absurd h (lt_irrefl _)

/-- The first bytes of what is left of the stream, a header's worth of them read, are those of the
next command. -/
theorem exists_command_of_header {ringLength n : ℕ} {header rest : List UInt8}
    (hframed : ∀ raw ∈ cmds, WellFramed ringLength raw)
    (h : header ++ rest = (cmds.flatten.drop (cmds.take k).flatten.length).take n)
    (hheader : header.length = headerLen) :
    ∃ raw, cmds[k]? = some raw ∧ WellFramed ringLength raw ∧ raw.take headerLen = header ∧
      (n ≤ raw.length → header ++ rest = raw.take n) := by
  have hlen : headerLen ≤ cmds.flatten.length - (cmds.take k).flatten.length := by
    have := congrArg List.length h
    rw [List.length_append, List.length_take, List.length_drop, hheader] at this
    omega
  rw [headerLen] at hlen
  obtain ⟨raw, hraw⟩ := exists_command (show (cmds.take k).flatten.length < _ by omega)
  have hwell := hframed raw (List.mem_of_getElem? hraw)
  rw [drop_flatten hraw] at h
  refine ⟨raw, hraw, hwell, ?_, fun hn => ?_⟩
  · have hn : headerLen ≤ n := by
      have := congrArg List.length h
      rw [List.length_append, List.length_take, hheader] at this
      omega
    have htake := congrArg (List.take headerLen) h
    rw [← hheader, List.take_left, hheader, List.take_take, min_eq_left hn,
      List.take_append_of_le_length hwell.header_le] at htake
    exact htake.symm
  · rw [h, List.take_append_of_le_length hn]

end Stream

/-! ### The invariant -/

/-- The bytes of a command before the part that is being read. -/
def Part.before : Part → List UInt8
  | .header => []
  | .barriers h => h
  | .payload h b => h ++ b

/-- How many bytes the part has. -/
def Part.size : Part → ℕ
  | .header => headerLen
  | .barriers h => (FifoCommand.ofBytes h).barrierCount.toNat * stampWaitLen
  | .payload h _ => (FifoCommand.ofBytes h).length.toNat - headerLen -
      (FifoCommand.ofBytes h).barrierCount.toNat * stampWaitLen

/-- The parts before it are whole. -/
def Part.Whole : Part → Prop
  | .header => True
  | .barriers h => h.length = headerLen
  | .payload h b => h.length = headerLen ∧
      b.length = (FifoCommand.ofBytes h).barrierCount.toNat * stampWaitLen

/-- The command that is advanced over and not yet run or refused. -/
def Pc.owed : Pc → List Command
  | .pushing command _ => [command]
  | .running command => [command]
  | .faulting command => [command]
  | _ => []

/-- How far a command is from being run, in stages. -/
def Pc.stage : Pc → ℕ
  | .loop => 9
  | .reading .header _ _ _ => 8
  | .reading (.barriers _) _ _ _ => 7
  | .reading (.payload _ _) _ _ _ => 6
  | .waiting _ => 5
  | .consuming _ _ => 4
  | .pushing _ _ => 3
  | .running _ => 2
  | .faulting _ => 2
  | .rewinding => 1
  | .unmapping => 0

namespace System

/-- The bytes of the commands advanced over. -/
def total (cmds : List (List UInt8)) (s : System) : ℕ := (cmds.take s.advanced.length).flatten.length

/-- The bytes read and not advanced over. -/
def pending (cmds : List (List UInt8)) (s : System) : ℕ :=
  s.fifo.ring.readCount.toNat - s.total cmds

/-- What holds of the stream, the node and the ring's counts wherever the thread is. -/
structure RingInv (length : UInt32) (cmds : List (List UInt8)) (s : System) : Prop where
  advanced_eq : s.advanced = (cmds.take s.advanced.length).map Command.ofRaw
  published_eq : s.fifo.node.readCount.toNat = s.total cmds
  last_eq : s.fifo.ring.lastReadCount = s.fifo.node.readCount
  total_le : s.total cmds ≤ s.fifo.ring.readCount.toNat
  read_le : s.fifo.ring.readCount.toNat ≤ s.fifo.ring.cacheWritten.toNat
  cache_le : s.fifo.ring.cacheWritten.toNat ≤ s.fifo.node.written.toNat
  written_le : s.fifo.node.written.toNat ≤ s.filled
  filled_le : s.filled ≤ s.total cmds + length.toNat
  filled_le_stream : s.filled ≤ cmds.flatten.length
  memory_eq : ∀ i, s.total cmds ≤ i → i < s.filled →
    cmds.flatten[i]? = some (s.memory (i % length.toNat))

/-- What holds of the bytes read and not advanced over, by where the thread is. -/
def Held (length : UInt32) (cmds : List (List UInt8)) (s : System) : Pc → Prop
  | .loop => s.quiesced = true ∨ s.pending cmds = 0
  | .reading part got left pc =>
    part.Whole ∧ got.length + left = part.size ∧
    part.before ++ got = (cmds.flatten.drop (s.total cmds)).take (s.pending cmds) ∧
    ∀ count, pc = .copy count → 0 < count.toNat ∧ count.toNat ≤ left ∧
      s.fifo.ring.readOffset.toNat + count.toNat ≤ length.toNat ∧
      s.fifo.ring.readCount.toNat + count.toNat ≤ s.fifo.ring.cacheWritten.toNat
  | .waiting command => ∃ raw, cmds[s.advanced.length]? = some raw ∧
      command = .ofRaw raw ∧ s.pending cmds = raw.length
  | .consuming command _ => ∃ raw, cmds[s.advanced.length]? = some raw ∧
      command = .ofRaw raw ∧ s.pending cmds = raw.length
  | .pushing _ _ => s.pending cmds = 0
  | .running _ => s.pending cmds = 0
  | .faulting _ => s.pending cmds = 0
  | .rewinding => True
  | .unmapping => s.pending cmds = 0

/-- What holds of the cursor while a thread runs, or while none does. -/
def ThreadInv (length : UInt32) (cmds : List (List UInt8)) (s : System) : Option Pc → Prop
  | none => s.pending cmds = 0 ∧ s.advanced = s.log.map Prod.fst
  | some pc => s.fifo.ringLength = length ∧
      Positioned length.toNat s.fifo.ring.readOffset s.fifo.ring.lastReadOffset
        s.fifo.node.readCount (s.total cmds) (s.pending cmds) ∧
      s.advanced = s.log.map Prod.fst ++ pc.owed ∧ s.Held length cmds pc

/-- The invariant of a run. -/
structure Inv (length : UInt32) (cmds : List (List UInt8)) (s : System) : Prop where
  ring : s.RingInv length cmds
  thread : s.ThreadInv length cmds s.thread

/-! ### One step -/

section Step

variable {length : UInt32} {cmds : List (List UInt8)} {s : System}

theorem RingInv.read_eq (h : s.RingInv length cmds) :
    s.fifo.ring.readCount.toNat = s.total cmds + s.pending cmds := by
  have hle := h.total_le
  rw [pending]
  omega

theorem RingInv.goto (h : s.RingInv length cmds) (pc : Pc) : (s.goto pc).RingInv length cmds where
  advanced_eq := h.advanced_eq
  published_eq := h.published_eq
  last_eq := h.last_eq
  total_le := h.total_le
  read_le := h.read_le
  cache_le := h.cache_le
  written_le := h.written_le
  filled_le := h.filled_le
  filled_le_stream := h.filled_le_stream
  memory_eq := h.memory_eq

/-- The thread moves its cursor. -/
theorem RingInv.ring (h : s.RingInv length cmds) (ring : ChildRing)
    (hlast : ring.lastReadCount = s.fifo.ring.lastReadCount)
    (htotal : s.total cmds ≤ ring.readCount.toNat)
    (hread : ring.readCount.toNat ≤ ring.cacheWritten.toNat)
    (hcache : ring.cacheWritten.toNat ≤ s.fifo.node.written.toNat) :
    RingInv length cmds { s with fifo := { s.fifo with ring := ring } } where
  advanced_eq := h.advanced_eq
  published_eq := h.published_eq
  last_eq := hlast.trans h.last_eq
  total_le := htotal
  read_le := hread
  cache_le := hcache
  written_le := h.written_le
  filled_le := h.filled_le
  filled_le_stream := h.filled_le_stream
  memory_eq := h.memory_eq

/-- The thread goes on at `pc`, having changed nothing else. -/
theorem Inv.goto (h : s.Inv length cmds) {pc pc' : Pc} (hpc : s.thread = some pc)
    (howed : pc'.owed = pc.owed) (hheld : s.Held length cmds pc') :
    (s.goto pc').Inv length cmds := by
  have hthread := h.thread
  rw [hpc] at hthread
  refine ⟨h.ring.goto pc', hthread.1, hthread.2.1, ?_, ?_⟩
  · rw [howed]
    exact hthread.2.2.1
  · cases pc' <;> exact hheld

theorem known_bounds (h : s.RingInv length cmds) (wanted : ℕ) :
    s.fifo.ring.readCount.toNat ≤ (s.fifo.ring.known s.fifo.node wanted).toNat ∧
      (s.fifo.ring.known s.fifo.node wanted).toNat ≤ s.fifo.node.written.toNat := by
  have hread := h.read_le
  have hcache := h.cache_le
  rw [ChildRing.known]
  split_ifs
  · exact ⟨hread.trans hcache, le_rfl⟩
  · exact ⟨hread, hcache⟩

theorem RingInv.wrapped (h : s.RingInv length cmds) : RingInv length cmds
    { s with fifo := { s.fifo with ring := { s.fifo.ring with readOffset := 0 } } } :=
  h.ring { s.fifo.ring with readOffset := 0 } rfl h.total_le h.read_le h.cache_le

theorem RingInv.cached (h : s.RingInv length cmds) (wanted : ℕ) : RingInv length cmds
    { s with fifo := { s.fifo with
      ring := { s.fifo.ring with cacheWritten := s.fifo.ring.known s.fifo.node wanted } } } :=
  h.ring { s.fifo.ring with cacheWritten := s.fifo.ring.known s.fifo.node wanted } rfl h.total_le
    (known_bounds h wanted).1 (known_bounds h wanted).2

/-- The bytes of the ring from the cursor on are the stream's. -/
theorem ringBytes_eq (h : s.RingInv length cmds) {offset count pos : ℕ}
    (hpos : s.total cmds ≤ pos) (hoffset : offset % length.toNat = pos % length.toNat)
    (hring : offset + count ≤ length.toNat) (hfilled : pos + count ≤ s.filled) :
    ringBytes s.memory offset count = (cmds.flatten.drop pos).take count := by
  refine List.ext_getElem? fun i => ?_
  by_cases hi : i < count
  · have hslot : (pos + i) % length.toNat = offset + i := by
      rw [Nat.add_mod, ← hoffset, ← Nat.add_mod, Nat.mod_eq_of_lt (by omega)]
    rw [List.getElem?_take_of_lt hi, List.getElem?_drop, h.memory_eq _ (by omega) (by omega), hslot,
      ringBytes]
    simp [hi]
  · have hleft : (ringBytes s.memory offset count).length = count := by simp [ringBytes]
    rw [List.getElem?_eq_none (by omega), List.getElem?_eq_none (by rw [List.length_take]; omega)]

theorem size_of_take {raw : List UInt8} {header : List UInt8} (hheader : raw.take headerLen = header) :
    (FifoCommand.ofBytes header).barrierCount.toNat = rawBarriers raw := by
  rw [← hheader]
  rfl

/-- A part read whole: the next one is to be read, or the command is the stream's. -/
theorem held_readDone (hframed : ∀ raw ∈ cmds, WellFramed length.toNat raw) {part : Part}
    {got : List UInt8} {pc : ReadPc} (hring : s.RingInv length cmds)
    (h : s.Held length cmds (.reading part got 0 pc)) :
    ((readDone length.toNat part got).owed = [] ∧
      (readDone length.toNat part got).stage < (Pc.reading part got 0 pc).stage ∧
      1 < (readDone length.toNat part got).stage) ∧
      s.Held length cmds (readDone length.toNat part got) := by
  obtain ⟨hwhole, hsize, hbytes, -⟩ := h
  rw [Nat.add_zero] at hsize
  cases part with
  | header =>
    change [] ++ got = _ at hbytes
    rw [List.nil_append, total] at hbytes
    obtain ⟨raw, hraw, hwell, htake, -⟩ :=
      exists_command_of_header hframed ((List.append_nil got).trans hbytes) hsize
    have hcount := size_of_take htake
    rw [readDone, ← htake, hwell.frame_eq, htake]
    dsimp only
    split_ifs with hzero
    · refine ⟨⟨rfl, (by decide : 7 < 8), (by decide : 1 < 7)⟩, hsize, ?_, ?_, fun _ hc => by cases hc⟩
      · rw [Part.size, hcount, List.length_nil, Nat.zero_add]
      · exact (List.append_nil got).trans hbytes
    · have hnone : rawBarriers raw = 0 := by
        rw [← hcount, not_not.mp hzero]
        rfl
      refine ⟨⟨rfl, (by decide : 6 < 8), (by decide : 1 < 6)⟩, ⟨hsize, ?_⟩, ?_, ?_, fun _ hc => by cases hc⟩
      · rw [hcount, hnone, Nat.zero_mul]
        rfl
      · rw [Part.size, hcount, ← htake, hwell.length_eq, List.length_nil, Nat.zero_add]
      · rw [Part.before, List.append_nil, List.append_nil]
        exact hbytes
  | barriers header =>
    rw [Part.before, total] at hbytes
    obtain ⟨raw, hraw, hwell, htake, -⟩ := exists_command_of_header hframed hbytes hwhole
    have hcount := size_of_take htake
    rw [readDone, ← htake, hwell.frame_eq, htake]
    refine ⟨⟨rfl, (by decide : 6 < 7), (by decide : 1 < 6)⟩, ⟨hwhole, hsize⟩, ?_, ?_, fun _ hc => by cases hc⟩
    · rw [Part.size, hcount, ← htake, hwell.length_eq, List.length_nil, Nat.zero_add]
    · rw [Part.before, List.append_nil]
      exact hbytes
  | payload header barriers =>
    rw [Part.before, total] at hbytes
    have happend := hbytes
    rw [List.append_assoc] at hbytes
    obtain ⟨raw, hraw, hwell, htake, heq⟩ := exists_command_of_header hframed hbytes hwhole.1
    have hcount := size_of_take htake
    have hpending : s.pending cmds = raw.length := by
      have hlen := congrArg List.length hbytes
      have hstream : s.total cmds + s.pending cmds ≤ cmds.flatten.length := by
        rw [← hring.read_eq]
        exact hring.read_le.trans (hring.cache_le.trans (hring.written_le.trans
          hring.filled_le_stream))
      rw [total] at hstream
      rw [Part.size, hcount, ← htake, hwell.length_eq] at hsize
      rw [List.length_take, List.length_drop, List.length_append, List.length_append, hwhole.1,
        hwhole.2, hcount, hsize] at hlen
      have hle := hwell.barriers_le
      have hlow := hwell.header_le
      omega
    refine ⟨⟨rfl, (by decide : 5 < 6), (by decide : 1 < 5)⟩, raw, hraw, ?_, hpending⟩
    refine (Command.ofRaw_eq ?_ hwhole.1 (by rw [hwhole.2, hcount])).symm
    rw [List.append_assoc, heq hpending.le, hpending, List.take_length]

theorem readStep_load (s : System) (part : Part) (got : List UInt8) (left : ℕ) :
    s.readStep part got left .load =
      if s.fifo.ringLength - s.fifo.ring.readOffset = 0 then
        { s with fifo := { s.fifo with ring := { s.fifo.ring with readOffset := 0 } } }.goto
          (.reading part got left .check)
      else if left = 0 then s.goto (readDone s.fifo.ringLength.toNat part got)
      else { s with fifo := { s.fifo with
          ring := { s.fifo.ring with cacheWritten := s.fifo.ring.known s.fifo.node left } } }.goto
        (.reading part got left
          (if s.fifo.ring.known s.fifo.node left - s.fifo.ring.readCount = 0 then .sleep
          else .copy (copyCount (s.fifo.ring.known s.fifo.node left - s.fifo.ring.readCount) left
            (s.fifo.ringLength - s.fifo.ring.readOffset)))) := by
  rw [readStep, ChildRing.load_eq]
  split_ifs <;> rfl

/-- The state after a load, with the count of a copy bounded by what is written, wanted and left
before the ring's end. -/
theorem Inv.load (hframed : ∀ raw ∈ cmds, WellFramed length.toNat raw) {part : Part}
    {got : List UInt8} {left : ℕ} (h : s.Inv length cmds)
    (hpc : s.thread = some (.reading part got left .load)) :
    (s.readStep part got left .load).Inv length cmds := by
  have hthread := h.thread
  rw [hpc] at hthread
  obtain ⟨hlength, hpos, howed, hwhole, hsize, hbytes, -⟩ := hthread
  obtain ⟨hknown, -⟩ := known_bounds h.ring left
  have huntil : (length - s.fifo.ring.readOffset).toNat =
      length.toNat - s.fifo.ring.readOffset.toNat :=
    UInt32.toNat_sub_of_le _ _ (UInt32.le_iff_toNat_le.mpr hpos.offset_le)
  have havailable : (s.fifo.ring.known s.fifo.node left - s.fifo.ring.readCount).toNat =
      (s.fifo.ring.known s.fifo.node left).toNat - s.fifo.ring.readCount.toNat :=
    UInt32.toNat_sub_of_le _ _ (UInt32.le_iff_toNat_le.mpr hknown)
  rw [readStep_load, hlength]
  split_ifs with hwrap hdone hnone
  · have hend : s.fifo.ring.readOffset.toNat = length.toNat := by
      rw [hwrap] at huntil
      change 0 = _ at huntil
      have := hpos.offset_le
      omega
    exact ⟨h.ring.wrapped.goto _, hlength,
      hpos.wrap hend, howed, hwhole, hsize, hbytes, fun _ hc => by cases hc⟩
  · rw [hdone] at hsize
    obtain ⟨⟨howed', -⟩, hheld⟩ := held_readDone hframed h.ring
      (show s.Held length cmds (.reading part got 0 .load) from
        ⟨hwhole, hsize, hbytes, fun _ hc => by cases hc⟩)
    exact h.goto hpc howed' hheld
  · exact ⟨(h.ring.cached left).goto _, hlength, hpos, howed, hwhole,
      hsize, hbytes, fun _ hc => by cases hc⟩
  · refine ⟨(h.ring.cached left).goto _, hlength, hpos, howed, hwhole,
      hsize, hbytes, fun count hc => ?_⟩
    injection hc with hc
    have hcount := toNat_copyCount (s.fifo.ring.known s.fifo.node left - s.fifo.ring.readCount)
      left (length - s.fifo.ring.readOffset)
    rw [hc] at hcount
    have hpositive : (s.fifo.ring.known s.fifo.node left - s.fifo.ring.readCount).toNat ≠ 0 :=
      fun hzero => hnone (UInt32.toNat_inj.mp hzero)
    have huntil' : (length - s.fifo.ring.readOffset).toNat ≠ 0 :=
      fun hzero => hwrap (UInt32.toNat_inj.mp hzero)
    refine ⟨by omega, by omega, ?_, ?_⟩
    · change s.fifo.ring.readOffset.toNat + _ ≤ _
      omega
    · change s.fifo.ring.readCount.toNat + _ ≤ (s.fifo.ring.known s.fifo.node left).toNat
      omega

/-- The bytes copied are the stream's next ones. -/
theorem Inv.copy {part : Part} {got : List UInt8} {left : ℕ} {count : UInt32}
    (h : s.Inv length cmds) (hpc : s.thread = some (.reading part got left (.copy count))) :
    (s.readStep part got left (.copy count)).Inv length cmds := by
  have hthread := h.thread
  rw [hpc] at hthread
  obtain ⟨hlength, hpos, howed, hwhole, hsize, hbytes, hcopy⟩ := hthread
  obtain ⟨hpositive, hleft, hend, hcache⟩ := hcopy count rfl
  have hread := h.ring.read_eq
  have hfilled := h.ring.cache_le.trans h.ring.written_le
  have hcacheLt := s.fifo.ring.cacheWritten.toNat_lt
  have hcount : (s.fifo.ring.readCount + count).toNat =
      s.fifo.ring.readCount.toNat + count.toNat := by
    rw [UInt32.toNat_add, Nat.mod_eq_of_lt (by omega)]
  have hpending : (s.fifo.ring.readCount + count).toNat - s.total cmds =
      s.pending cmds + count.toNat := by
    rw [hcount]
    omega
  have hring : RingInv length cmds
      { s with fifo := { s.fifo with ring := s.fifo.ring.copied count } } :=
    h.ring.ring _ rfl (by change _ ≤ (s.fifo.ring.readCount + count).toNat; omega)
      (by change (s.fifo.ring.readCount + count).toNat ≤ s.fifo.ring.cacheWritten.toNat; omega)
      h.ring.cache_le
  have hcopied := ringBytes_eq h.ring (Nat.le_add_right (s.total cmds) (s.pending cmds))
    hpos.offset_mod hend (by omega)
  rw [readStep]
  refine ⟨hring.goto _, hlength, ?_, howed, hwhole, ?_, ?_, fun _ hc => by cases hc⟩
  · change Positioned length.toNat (s.fifo.ring.readOffset + count) _ _ (s.total cmds)
      ((s.fifo.ring.readCount + count).toNat - s.total cmds)
    rw [hpending]
    exact hpos.copied length.toNat_lt hend
  · rw [List.length_append, ringBytes, List.length_map, List.length_range]
    omega
  · change _ = (cmds.flatten.drop (s.total cmds)).take
      ((s.fifo.ring.readCount + count).toNat - s.total cmds)
    rw [hpending, List.take_add, List.drop_drop, ← hbytes, hcopied, List.append_assoc]

theorem Inv.readStep (hframed : ∀ raw ∈ cmds, WellFramed length.toNat raw) {part : Part}
    {got : List UInt8} {left : ℕ} {pc : ReadPc} (h : s.Inv length cmds)
    (hpc : s.thread = some (.reading part got left pc)) :
    (s.readStep part got left pc).Inv length cmds := by
  have hthread := h.thread
  rw [hpc] at hthread
  obtain ⟨hlength, hpos, howed, hwhole, hsize, hbytes, -⟩ := hthread
  cases pc with
  | check =>
    rw [System.readStep]
    split_ifs with hquiesced
    · refine h.goto hpc (by cases part <;> rfl) ?_
      cases part with
      | header => exact .inl hquiesced
      | barriers _ => trivial
      | payload _ _ => exact .inl hquiesced
    · exact h.goto hpc rfl ⟨hwhole, hsize, hbytes, fun _ hc => by cases hc⟩
  | load => exact h.load hframed hpc
  | copy count => exact h.copy hpc
  | sleep =>
    rw [System.readStep, ChildRing.available_eq]
    split_ifs with hquiesced
    · exact h.goto hpc rfl ⟨hwhole, hsize, hbytes, fun _ hc => by cases hc⟩
    · exact ⟨(h.ring.cached left).goto _, hlength, hpos, howed, hwhole,
        hsize, hbytes, fun _ hc => by cases hc⟩

/-- The advance: the command's bytes are published, and none are pending. -/
theorem Inv.consume {command : Command} {met : Bool} (h : s.Inv length cmds)
    (hpc : s.thread = some (.consuming command met)) :
    Inv length cmds ({ s with fifo := s.fifo.advance, advanced := s.advanced ++ [command] }.goto
      (.pushing command met)) := by
  have hthread := h.thread
  rw [hpc] at hthread
  obtain ⟨hlength, hpos, howed, raw, hraw, hcommand, hpending⟩ := hthread
  have hread := h.ring.read_eq
  have hlen : (s.advanced ++ [command]).length = s.advanced.length + 1 := List.length_append
  have htotal : (cmds.take (s.advanced ++ [command]).length).flatten.length =
      s.fifo.ring.readCount.toNat := by
    rw [hlen, length_flatten_take_succ hraw, hread, hpending, total]
  have hless : s.total cmds ≤ s.fifo.ring.readCount.toNat := h.ring.total_le
  have hzero : s.fifo.ring.readCount.toNat -
      (cmds.take (s.advanced ++ [command]).length).flatten.length = 0 := by
    rw [htotal, Nat.sub_self]
  refine ⟨⟨?_, htotal.symm, rfl, htotal.le, h.ring.read_le, h.ring.cache_le, h.ring.written_le,
    ?_, h.ring.filled_le_stream, fun i hi => h.ring.memory_eq i (hless.trans (htotal ▸ hi))⟩,
    hlength, ?_, ?_, hzero⟩
  · change s.advanced ++ [command] = (cmds.take (s.advanced ++ [command]).length).map _
    rw [hlen, List.take_add_one, hraw, List.map_append, ← h.ring.advanced_eq, hcommand]
    rfl
  · change s.filled ≤ (cmds.take (s.advanced ++ [command]).length).flatten.length + _
    have := h.ring.filled_le
    omega
  · change Positioned length.toNat s.fifo.ring.readOffset s.fifo.ring.readOffset
      s.fifo.ring.readCount (cmds.take (s.advanced ++ [command]).length).flatten.length
      (s.fifo.ring.readCount.toNat - (cmds.take (s.advanced ++ [command]).length).flatten.length)
    rw [hzero, htotal]
    have hmod := hpos.offset_mod
    rw [← hread] at hmod
    exact ⟨hpos.offset_le, hmod, hpos.offset_le, hmod,
      (Nat.mod_eq_of_lt s.fifo.ring.readCount.toNat_lt).symm⟩
  · change s.advanced ++ [command] = s.log.map Prod.fst ++ [command]
    rw [howed]
    exact congrArg (· ++ [command]) (List.append_nil _)

/-- The command advanced over is run or refused. -/
theorem Inv.logged {pc : Pc} {command : Command} {ran : Bool} (h : s.Inv length cmds)
    (hpc : s.thread = some pc) (howes : pc.owed = [command]) (hpending : s.pending cmds = 0) :
    Inv length cmds ({ s with log := s.log ++ [(command, ran)] }.goto .loop) := by
  have hthread := h.thread
  rw [hpc] at hthread
  obtain ⟨hlength, hpos, howed, -⟩ := hthread
  have hring := h.ring
  refine ⟨⟨hring.advanced_eq, hring.published_eq, hring.last_eq, hring.total_le, hring.read_le,
    hring.cache_le, hring.written_le, hring.filled_le, hring.filled_le_stream, hring.memory_eq⟩,
    hlength, hpos, ?_, .inr hpending⟩
  change s.advanced = (s.log ++ [(command, ran)]).map Prod.fst ++ []
  rw [howed, howes, List.map_append, List.append_nil]
  rfl

/-- The cursor returns to the last advance. -/
theorem Inv.rewind (h : s.Inv length cmds) (hpc : s.thread = some .rewinding) :
    Inv length cmds
      ({ s with fifo := { s.fifo with ring := s.fifo.ring.rewind } }.goto .unmapping) := by
  have hthread := h.thread
  rw [hpc] at hthread
  obtain ⟨hlength, hpos, howed, -⟩ := hthread
  have hlast : s.fifo.ring.lastReadCount.toNat = s.total cmds := by
    rw [h.ring.last_eq, h.ring.published_eq]
  have hzero : s.fifo.ring.lastReadCount.toNat - s.total cmds = 0 := by
    rw [hlast, Nat.sub_self]
  have hring := h.ring.ring s.fifo.ring.rewind rfl hlast.ge
    (by
      change s.fifo.ring.lastReadCount.toNat ≤ s.fifo.ring.cacheWritten.toNat
      rw [hlast]
      exact h.ring.total_le.trans h.ring.read_le)
    h.ring.cache_le
  refine ⟨hring.goto _, hlength, ?_, howed, hzero⟩
  change Positioned length.toNat s.fifo.ring.lastReadOffset s.fifo.ring.lastReadOffset
    s.fifo.node.readCount (s.total cmds) (s.fifo.ring.lastReadCount.toNat - s.total cmds)
  rw [hzero]
  exact hpos.rewind

theorem Inv.threadStep (hframed : ∀ raw ∈ cmds, WellFramed length.toNat raw) {pc : Pc}
    (h : s.Inv length cmds) (hpc : s.thread = some pc) (r : WaitResult) :
    (s.threadStep r pc).Inv length cmds := by
  have hthread := h.thread
  rw [hpc] at hthread
  obtain ⟨hlength, hpos, howed, hheld⟩ := hthread
  cases pc with
  | loop =>
    rw [System.threadStep]
    split_ifs with hquiesced
    · exact h.goto hpc rfl trivial
    · have hzero : s.pending cmds = 0 := hheld.resolve_left hquiesced
      refine h.goto hpc rfl ⟨trivial, Nat.zero_add _, ?_, fun _ hc => by cases hc⟩
      rw [hzero]
      rfl
  | reading part got left pc => exact h.readStep hframed hpc
  | waiting command =>
    cases r with
    | met =>
      rw [System.threadStep]
      split_ifs
      · exact h.goto hpc rfl hheld
      · exact h.goto hpc rfl hheld
    | unmet =>
      rw [System.threadStep]
      split_ifs
      · exact h.goto hpc rfl hheld
      · exact h.goto hpc rfl trivial
    | raised =>
      rw [System.threadStep]
      split_ifs
      · exact h.goto hpc rfl hheld
      · exact h.goto hpc rfl hheld
  | consuming command met => exact h.consume hpc
  | pushing command met =>
    rw [System.threadStep]
    cases met
    · exact h.goto hpc rfl hheld
    · exact h.goto hpc rfl hheld
  | running command => exact h.logged hpc rfl hheld
  | faulting command => exact h.logged hpc rfl hheld
  | rewinding => exact h.rewind hpc
  | unmapping =>
    have hring := h.ring
    refine ⟨⟨hring.advanced_eq, hring.published_eq, hring.last_eq, hring.total_le, hring.read_le,
      hring.cache_le, hring.written_le, hring.filled_le, hring.filled_le_stream,
      hring.memory_eq⟩, hheld, ?_⟩
    exact howed.trans (List.append_nil _)

/-- The guest writes a byte, past every byte that may still be read. -/
theorem RingInv.fill (h : s.RingInv length cmds) {byte : UInt8}
    (hbyte : cmds.flatten[s.filled]? = some byte)
    (hroom : s.filled < s.fifo.node.readCount.toNat + length.toNat) :
    RingInv length cmds { s with
      memory := Function.update s.memory (s.filled % length.toNat) byte
      filled := s.filled + 1 } := by
  have hlt : s.filled < cmds.flatten.length := (List.getElem?_eq_some_iff.mp hbyte).1
  rw [h.published_eq] at hroom
  refine ⟨h.advanced_eq, h.published_eq, h.last_eq, h.total_le, h.read_le, h.cache_le,
    h.written_le.trans (Nat.le_succ _), hroom, hlt, fun i hi hfilled => ?_⟩
  change s.total cmds ≤ i at hi
  change i < s.filled + 1 at hfilled
  change _ = some (Function.update s.memory (s.filled % length.toNat) byte (i % length.toNat))
  rcases Nat.lt_succ_iff_lt_or_eq.mp hfilled with hless | rfl
  · have hne : i % length.toNat ≠ s.filled % length.toNat := by
      intro heq
      have hdvd := (Nat.modEq_iff_dvd' hless.le).mp heq
      have := Nat.le_of_dvd (by omega) hdvd
      omega
    rw [Function.update_of_ne hne]
    exact h.memory_eq i hi hless
  · rw [Function.update_self]
    exact hbyte

/-- The ring mapped for a start: the cursor is at the published count. -/
theorem Inv.start (hlength : length ≠ 0) (h : s.Inv length cmds) (hpc : s.thread = none) :
    Inv length cmds { s with
      fifo := s.fifo.mapLength length, quiesced := false, thread := some .loop } := by
  have hthread := h.thread
  rw [hpc] at hthread
  obtain ⟨hpending, hlog⟩ := hthread
  have hpositive : 0 < length.toNat :=
    Nat.pos_of_ne_zero fun hzero => hlength (UInt32.toNat_inj.mp hzero)
  have hcursor : (rem0 s.fifo.node.readCount length).toNat = s.total cmds % length.toNat := by
    rw [toNat_rem0 hlength, h.ring.published_eq]
  have hle : (rem0 s.fifo.node.readCount length).toNat ≤ length.toNat := by
    rw [hcursor]
    exact (Nat.mod_lt _ hpositive).le
  have hmod : (rem0 s.fifo.node.readCount length).toNat % length.toNat =
      s.total cmds % length.toNat := by
    rw [hcursor, Nat.mod_mod]
  have hpublished : s.fifo.node.readCount.toNat = s.total cmds % 2 ^ 32 := by
    rw [← h.ring.published_eq, Nat.mod_eq_of_lt s.fifo.node.readCount.toNat_lt]
  have hring := h.ring
  refine ⟨⟨hring.advanced_eq, hring.published_eq, hring.last_eq, hring.total_le, hring.read_le,
    hring.cache_le, hring.written_le, hring.filled_le, hring.filled_le_stream, hring.memory_eq⟩,
    rfl, ⟨hle, ?_, hle, hmod, hpublished⟩, hlog.trans (List.append_nil _).symm, .inr hpending⟩
  change _ = (s.total cmds + s.pending cmds) % _
  rw [hpending, Nat.add_zero]
  exact hmod

theorem Inv.step (hlength : length ≠ 0) (hframed : ∀ raw ∈ cmds, WellFramed length.toNat raw)
    (h : s.Inv length cmds) {a : Action} {t : System}
    (hstep : s.step length cmds.flatten a = some t) : t.Inv length cmds := by
  have hthread := h.thread
  cases a with
  | fill =>
    rw [System.step] at hstep
    split at hstep
    next byte hbyte =>
      split_ifs at hstep with hroom
      obtain rfl := Option.some.inj hstep
      exact ⟨h.ring.fill hbyte hroom, h.thread⟩
    next => cases hstep
  | publish written =>
    rw [System.step] at hstep
    split_ifs at hstep with hle
    obtain rfl := Option.some.inj hstep
    have hring := h.ring
    exact ⟨⟨hring.advanced_eq, hring.published_eq, hring.last_eq, hring.total_le, hring.read_le,
      hring.cache_le.trans hle.1, hle.2, hring.filled_le, hring.filled_le_stream,
      hring.memory_eq⟩, h.thread⟩
  | stop =>
    obtain rfl := Option.some.inj hstep
    have hring := h.ring
    refine ⟨⟨hring.advanced_eq, hring.published_eq, hring.last_eq, hring.total_le, hring.read_le,
      hring.cache_le, hring.written_le, hring.filled_le, hring.filled_le_stream,
      hring.memory_eq⟩, ?_⟩
    cases hpc : s.thread with
    | none =>
      rw [hpc] at hthread
      exact hthread
    | some pc =>
      rw [hpc] at hthread
      refine ⟨hthread.1, hthread.2.1, hthread.2.2.1, ?_⟩
      cases pc with
      | loop => exact .inl rfl
      | _ => exact hthread.2.2.2
  | start =>
    rw [System.step] at hstep
    split at hstep
    next hpc =>
      obtain rfl := Option.some.inj hstep
      exact h.start hlength hpc
    next => cases hstep
  | thread r =>
    rw [System.step] at hstep
    obtain ⟨pc, hpc, rfl⟩ := Option.map_eq_some_iff.mp hstep
    exact h.threadStep hframed hpc r

end Step

/-! ### Progress -/

section Progress

variable {length : UInt32} {cmds : List (List UInt8)} {s : System}

theorem left_le (h : s.Inv length cmds) {part : Part} {got : List UInt8} {left : ℕ} {pc : ReadPc}
    (hpc : s.thread = some (.reading part got left pc)) : left < 2 ^ 33 := by
  have hthread := h.thread
  rw [hpc] at hthread
  obtain ⟨-, -, -, -, hsize, -⟩ := hthread
  suffices hlt : part.size < 2 ^ 33 by omega
  cases part with
  | header => decide
  | barriers header =>
    have := (FifoCommand.ofBytes header).barrierCount.toNat_lt
    rw [Part.size, stampWaitLen]
    omega
  | payload header barriers =>
    have := (FifoCommand.ofBytes header).length.toNat_lt
    rw [Part.size]
    omega

/-- A read stays within the command. -/
theorem reading_le (hframed : ∀ raw ∈ cmds, WellFramed length.toNat raw) (h : s.Inv length cmds)
    {part : Part} {got : List UInt8} {left : ℕ} {pc : ReadPc}
    (hpc : s.thread = some (.reading part got left pc)) {raw : List UInt8}
    (hraw : cmds[s.advanced.length]? = some raw) :
    s.fifo.ring.readCount.toNat + left ≤ s.total cmds + raw.length := by
  have hthread := h.thread
  rw [hpc] at hthread
  obtain ⟨-, -, -, hwhole, hsize, hbytes, -⟩ := hthread
  have hread := h.ring.read_eq
  have hwell := hframed raw (List.mem_of_getElem? hraw)
  have hstream : s.total cmds + s.pending cmds ≤ cmds.flatten.length := by
    rw [← hread]
    exact h.ring.read_le.trans (h.ring.cache_le.trans (h.ring.written_le.trans
      h.ring.filled_le_stream))
  have hlen := congrArg List.length hbytes
  rw [List.length_append, List.length_take, List.length_drop] at hlen
  have hlow := hwell.header_le
  cases part with
  | header =>
    rw [Part.size] at hsize
    rw [Part.before, List.length_nil] at hlen
    omega
  | barriers header =>
    rw [Part.before] at hbytes hlen
    obtain ⟨raw', hraw', -, htake, -⟩ := exists_command_of_header hframed hbytes hwhole
    obtain rfl : raw' = raw := Option.some.inj (hraw'.symm.trans hraw)
    rw [Part.size, size_of_take htake] at hsize
    have hle := hwell.barriers_le
    have hheader : header.length = headerLen := hwhole
    omega
  | payload header barriers =>
    rw [Part.before, List.append_assoc] at hbytes
    obtain ⟨raw', hraw', -, htake, -⟩ := exists_command_of_header hframed hbytes hwhole.1
    obtain rfl : raw' = raw := Option.some.inj (hraw'.symm.trans hraw)
    rw [Part.size, size_of_take htake, ← htake, hwell.length_eq] at hsize
    rw [Part.before, List.length_append, hwhole.1, hwhole.2, size_of_take htake] at hlen
    have hle := hwell.barriers_le
    omega

/-- The steps a read may take before its next copy. -/
def rank : ReadPc → ℕ
  | .check => 2
  | .load => 1
  | .copy _ => 0
  | .sleep => 3

/-- What is left of a stage: only a read has more than one step. -/
def effort (s : System) : Pc → ℕ
  | .reading _ _ left pc =>
    (left * 2 + if s.fifo.ring.readOffset = s.fifo.ringLength then 1 else 0) * 4 + rank pc
  | _ => 0

/-- What is left before `m` commands are run or refused. -/
def remaining (m : ℕ) (s : System) (pc : Pc) : ℕ :=
  ((m - s.log.length) * 10 + pc.stage) * 2 ^ 37 + s.effort pc

theorem effort_lt (h : s.Inv length cmds) {pc : Pc} (hpc : s.thread = some pc) :
    s.effort pc < 2 ^ 37 := by
  cases pc with
  | reading part got left pc =>
    have hleft := left_le h hpc
    have hrank : rank pc ≤ 3 := by cases pc <;> simp [rank]
    rw [effort]
    split_ifs <;> omega
  | _ => exact Nat.two_pow_pos 37

/-- A step to a later stage. -/
theorem remaining_lt_of_stage {m : ℕ} {t : System} {pc pc' : Pc} (ht : t.Inv length cmds)
    (hpc' : t.thread = some pc') (hlog : t.log = s.log) (hstage : pc'.stage < pc.stage) :
    remaining m t pc' < remaining m s pc := by
  have heffort := effort_lt ht hpc'
  rw [remaining, remaining, hlog]
  omega

/-- A step within a stage. -/
theorem remaining_lt_of_effort {m : ℕ} {t : System} {pc pc' : Pc} (hlog : t.log = s.log)
    (hstage : pc'.stage = pc.stage) (heffort : t.effort pc' < s.effort pc) :
    remaining m t pc' < remaining m s pc := by
  rw [remaining, remaining, hlog, hstage]
  omega

/-- The next command to be read, when it is among the first `m` and those are published. -/
theorem next_published {m : ℕ} (hless : s.advanced.length < m)
    (hm : m ≤ cmds.length) (hwritten : (cmds.take m).flatten.length ≤ s.fifo.node.written.toNat) :
    ∃ raw, cmds[s.advanced.length]? = some raw ∧
      s.total cmds + raw.length ≤ s.fifo.node.written.toNat := by
  refine ⟨cmds[s.advanced.length], List.getElem?_eq_getElem (by omega), ?_⟩
  have hsucc := length_flatten_take_succ (List.getElem?_eq_getElem (show s.advanced.length <
    cmds.length by omega))
  rw [total, ← hsucc]
  exact (length_flatten_take_mono hless).trans hwritten

/-- The thread is on its way to run a command. -/
structure Live (s : System) (pc : Pc) : Prop where
  thread_eq : s.thread = some pc
  running : s.quiesced = false
  stage_gt : 1 < pc.stage

theorem available_ne_zero (h : s.Inv length cmds) {left : ℕ} (hleft : left ≠ 0)
    (hwritten : s.fifo.ring.readCount.toNat + left ≤ s.fifo.node.written.toNat) :
    s.fifo.ring.known s.fifo.node left - s.fifo.ring.readCount ≠ 0 := by
  have hcache : (s.fifo.ring.cacheWritten - s.fifo.ring.readCount).toNat =
      s.fifo.ring.cacheWritten.toNat - s.fifo.ring.readCount.toNat :=
    UInt32.toNat_sub_of_le _ _ (UInt32.le_iff_toNat_le.mpr h.ring.read_le)
  intro hzero
  have heq := sub_eq_zero.mp hzero
  rw [ChildRing.known] at heq
  split_ifs at heq with hshort
  · rw [heq] at hwritten
    omega
  · rw [hcache, heq] at hshort
    omega

/-- A read whose bytes are published does not wait. -/
theorem read_progress {m : ℕ} (hlength : length ≠ 0)
    (hframed : ∀ raw ∈ cmds, WellFramed length.toNat raw) (h : s.Inv length cmds) {part : Part}
    {got : List UInt8} {left : ℕ} {pc : ReadPc} (hlive : s.Live (.reading part got left pc))
    {raw : List UInt8} (hraw : cmds[s.advanced.length]? = some raw)
    (hwritten : s.total cmds + raw.length ≤ s.fifo.node.written.toNat) :
    ∃ pc', (s.readStep part got left pc).Live pc' ∧
      remaining m (s.readStep part got left pc) pc' <
        remaining m s (.reading part got left pc) := by
  have hpc := hlive.thread_eq
  have hnext := h.readStep hframed hpc
  have hquiesced : ¬ s.quiesced = true := by
    rw [hlive.running]
    exact Bool.false_ne_true
  have hthread := h.thread
  rw [hpc] at hthread
  obtain ⟨hring, hpos, howed, hwhole, hsize, hbytes, hcopy⟩ := hthread
  have hstage : ∀ (got' : List UInt8) (left' : ℕ) (pc' : ReadPc),
      (Pc.reading part got' left' pc').stage = (Pc.reading part got left pc).stage := by
    intro got' left' pc'
    cases part <;> rfl
  have hlive' : ∀ (t : System) (got' : List UInt8) (left' : ℕ) (pc' : ReadPc),
      t.quiesced = s.quiesced → (t.goto (.reading part got' left' pc')).Live
        (.reading part got' left' pc') := by
    intro t got' left' pc' hq
    exact ⟨rfl, hq.trans hlive.running, (hstage got' left' pc').symm ▸ hlive.stage_gt⟩
  cases pc with
  | check =>
    rw [System.readStep, if_neg hquiesced]
    refine ⟨_, hlive' s got left .load rfl, remaining_lt_of_effort rfl (hstage _ _ _) ?_⟩
    change _ + 1 < _ + 2
    exact Nat.add_lt_add_left (by decide) _
  | load =>
    have hle := reading_le hframed h hpc hraw
    rw [readStep_load, hring] at hnext ⊢
    split_ifs at hnext ⊢ with hwrap hdone hnone
    · have hend : s.fifo.ring.readOffset = s.fifo.ringLength := by
        rw [hring]
        exact (sub_eq_zero.mp hwrap).symm
      have hstart : (0 : UInt32) ≠ s.fifo.ringLength := by
        rw [hring]
        exact hlength.symm
      refine ⟨_, hlive' _ got left .check rfl, remaining_lt_of_effort rfl (hstage _ _ _) ?_⟩
      rw [effort, effort, rank, rank, if_pos hend]
      change (left * 2 + if (0 : UInt32) = s.fifo.ringLength then 1 else 0) * 4 + 2 < _
      rw [if_neg hstart]
      omega
    · subst hdone
      obtain ⟨⟨-, hlater, hgt⟩, -⟩ := held_readDone hframed h.ring
        (show s.Held length cmds (.reading part got 0 .load) from ⟨hwhole, hsize, hbytes, hcopy⟩)
      exact ⟨_, ⟨rfl, hlive.running, hgt⟩, remaining_lt_of_stage hnext rfl rfl hlater⟩
    · exact absurd hnone (available_ne_zero h hdone (hle.trans hwritten))
    · refine ⟨_, hlive' _ got left _ rfl, remaining_lt_of_effort rfl (hstage _ _ _) ?_⟩
      change _ + 0 < _ + 1
      exact Nat.lt_succ_self _
  | copy count =>
    obtain ⟨hpositive, hle, -⟩ := hcopy count rfl
    refine ⟨_, hlive' _ (got ++ ringBytes s.memory s.fifo.ring.readOffset.toNat count.toNat)
      (left - count.toNat) .check rfl, remaining_lt_of_effort rfl (hstage _ _ _) ?_⟩
    rw [effort, effort, rank, rank]
    split_ifs <;> omega
  | sleep =>
    rw [System.readStep, if_neg hquiesced, ChildRing.available_eq]
    refine ⟨_, hlive' _ got left .check rfl, remaining_lt_of_effort rfl (hstage _ _ _) ?_⟩
    change _ + 2 < _ + 3
    exact Nat.lt_succ_self _

theorem readStep_node (s : System) (part : Part) (got : List UInt8) (left : ℕ) (pc : ReadPc) :
    (s.readStep part got left pc).fifo.node = s.fifo.node := by
  cases pc with
  | check =>
    rw [readStep]
    split_ifs <;> rfl
  | load =>
    rw [readStep_load]
    split_ifs <;> rfl
  | copy count => rfl
  | sleep => rfl

theorem threadStep_written (s : System) (r : WaitResult) (pc : Pc) :
    (s.threadStep r pc).fifo.node.written = s.fifo.node.written := by
  cases pc with
  | loop =>
    rw [threadStep]
    split_ifs <;> rfl
  | reading part got left pc =>
    exact congrArg ChildNode.written (s.readStep_node part got left pc)
  | waiting command =>
    cases r <;> (rw [threadStep]; split_ifs <;> rfl)
  | _ => rfl

/-- A step of the thread on its way, its barriers met, brings the next command nearer. -/
theorem thread_progress {m : ℕ} (hlength : length ≠ 0)
    (hframed : ∀ raw ∈ cmds, WellFramed length.toNat raw) (h : s.Inv length cmds) {pc : Pc}
    (hlive : s.Live pc) (hless : s.log.length < m) (hm : m ≤ cmds.length)
    (hwritten : (cmds.take m).flatten.length ≤ s.fifo.node.written.toNat) :
    ∃ pc', (s.threadStep .met pc).Live pc' ∧
      remaining m (s.threadStep .met pc) pc' < remaining m s pc := by
  have hnext := h.threadStep hframed hlive.thread_eq .met
  have hquiesced : ¬ s.quiesced = true := by
    rw [hlive.running]
    exact Bool.false_ne_true
  have hthread := h.thread
  rw [hlive.thread_eq] at hthread
  obtain ⟨-, -, howed, -⟩ := hthread
  cases pc with
  | loop =>
    rw [System.threadStep, if_neg hquiesced] at hnext ⊢
    exact ⟨_, ⟨rfl, hlive.running, (by decide : 1 < 8)⟩,
      remaining_lt_of_stage hnext rfl rfl (by decide : 8 < 9)⟩
  | reading part got left pc =>
    have hlog : s.advanced.length < m := by
      rw [howed, List.length_append, List.length_map]
      exact hless
    obtain ⟨raw, hraw, hle⟩ := next_published hlog hm hwritten
    exact read_progress hlength hframed h hlive hraw hle
  | waiting command =>
    have heq : s.threadStep .met (.waiting command) = s.goto (.consuming command true) := by
      rw [System.threadStep]
      split_ifs <;> rfl
    rw [heq] at hnext ⊢
    exact ⟨_, ⟨rfl, hlive.running, (by decide : 1 < 4)⟩,
      remaining_lt_of_stage hnext rfl rfl (by decide : 4 < 5)⟩
  | consuming command met =>
    exact ⟨_, ⟨rfl, hlive.running, (by decide : 1 < 3)⟩,
      remaining_lt_of_stage hnext rfl rfl (by decide : 3 < 4)⟩
  | pushing command met =>
    cases met
    · exact ⟨_, ⟨rfl, hlive.running, (by decide : 1 < 2)⟩,
        remaining_lt_of_stage hnext rfl rfl (by decide : 2 < 3)⟩
    · exact ⟨_, ⟨rfl, hlive.running, (by decide : 1 < 2)⟩,
        remaining_lt_of_stage hnext rfl rfl (by decide : 2 < 3)⟩
  | running command =>
    refine ⟨.loop, ⟨rfl, hlive.running, (by decide : 1 < 9)⟩, ?_⟩
    have hlog : (s.threadStep .met (.running command)).log.length = s.log.length + 1 :=
      List.length_append
    rw [remaining, remaining, hlog]
    change ((m - (s.log.length + 1)) * 10 + 9) * 2 ^ 37 + 0 < (_ + 2) * _ + 0
    omega
  | faulting command =>
    refine ⟨.loop, ⟨rfl, hlive.running, (by decide : 1 < 9)⟩, ?_⟩
    have hlog : (s.threadStep .met (.faulting command)).log.length = s.log.length + 1 :=
      List.length_append
    rw [remaining, remaining, hlog]
    change ((m - (s.log.length + 1)) * 10 + 9) * 2 ^ 37 + 0 < (_ + 2) * _ + 0
    omega
  | rewinding => exact absurd hlive.stage_gt (by decide)
  | unmapping => exact absurd hlive.stage_gt (by decide)

/-- The step relation. -/
def Steps (length : UInt32) (cmds : List (List UInt8)) (s : System) (a : Action) (t : System) :
    Prop :=
  s.step length cmds.flatten a = some t

theorem steps_thread {pc : Pc} (hpc : s.thread = some pc) (r : WaitResult) :
    Steps length cmds s (.thread r) (s.threadStep r pc) := by
  rw [Steps, step, hpc]
  rfl

/-- A thread on its way runs every command that is published. -/
theorem exists_run_live {m : ℕ} (hlength : length ≠ 0)
    (hframed : ∀ raw ∈ cmds, WellFramed length.toNat raw) (hm : m ≤ cmds.length) (n : ℕ) :
    ∀ (s : System) (pc : Pc), s.Inv length cmds → s.Live pc →
      (cmds.take m).flatten.length ≤ s.fifo.node.written.toNat → remaining m s pc ≤ n →
      ∃ j t, Execution (Steps length cmds) s (List.replicate j (.thread .met)) t ∧
        m ≤ t.log.length := by
  induction n with
  | zero =>
    intro s pc h hlive hwritten hn
    by_cases hless : s.log.length < m
    · obtain ⟨pc', -, hlt⟩ := thread_progress hlength hframed h hlive hless hm hwritten
      omega
    · exact ⟨0, s, .nil s, by omega⟩
  | succ n ih =>
    intro s pc h hlive hwritten hn
    by_cases hless : s.log.length < m
    · obtain ⟨pc', hlive', hlt⟩ := thread_progress hlength hframed h hlive hless hm hwritten
      obtain ⟨j, t, hrun, hlog⟩ := ih (s.threadStep .met pc) pc'
        (h.threadStep hframed hlive.thread_eq .met) hlive'
        (by rw [threadStep_written]; exact hwritten) (by omega)
      have hfirst : Execution (Steps length cmds) s [.thread .met] (s.threadStep .met pc) :=
        .single (steps_thread hlive.thread_eq .met)
      exact ⟨j + 1, t, hfirst.trans hrun, hlog⟩
    · exact ⟨0, s, .nil s, by omega⟩

/-- A stopped thread's steps to its exit, at most. -/
def exitRank : Pc → ℕ
  | .unmapping => 0
  | .rewinding => 1
  | .loop => 2
  | .reading _ _ _ .check => 3
  | .reading _ _ _ .sleep => 4
  | .reading _ _ _ (.copy _) => 4
  | .reading _ _ _ .load => 7
  | .running _ => 3
  | .faulting _ => 3
  | .pushing _ _ => 4
  | .consuming _ _ => 5
  | .waiting _ => 6

theorem exitRank_readDone (ringLength : ℕ) (part : Part) (got : List UInt8) :
    exitRank (readDone ringLength part got) < 7 := by
  cases part with
  | header =>
    rw [readDone]
    split
    · decide
    · decide
    · split_ifs <;> exact (by decide : 3 < 7)
  | barriers header =>
    rw [readDone]
    split
    · exact (by decide : 3 < 7)
    · decide
  | payload header barriers => exact (by decide : 6 < 7)

/-- The thread is to exit. -/
structure Leaving (s : System) (pc : Pc) : Prop where
  thread_eq : s.thread = some pc
  stopped : s.quiesced = true ∨ pc.stage ≤ 1

theorem read_exit {part : Part} {got : List UInt8} {left : ℕ} {pc : ReadPc}
    (hquiesced : s.quiesced = true) : ∃ pc', (s.readStep part got left pc).Leaving pc' ∧
      exitRank pc' < exitRank (.reading part got left pc) := by
  cases pc with
  | check =>
    rw [readStep, if_pos hquiesced]
    refine ⟨_, ⟨rfl, .inl hquiesced⟩, ?_⟩
    cases part
    · exact (by decide : 2 < 3)
    · exact (by decide : 1 < 3)
    · exact (by decide : 2 < 3)
  | load =>
    rw [readStep_load]
    split_ifs
    · exact ⟨_, ⟨rfl, .inl hquiesced⟩, (by decide : 3 < 7)⟩
    · exact ⟨_, ⟨rfl, .inl hquiesced⟩, exitRank_readDone _ _ _⟩
    · exact ⟨_, ⟨rfl, .inl hquiesced⟩, (by decide : 4 < 7)⟩
    · exact ⟨_, ⟨rfl, .inl hquiesced⟩, (by decide : 4 < 7)⟩
  | copy count => exact ⟨_, ⟨rfl, .inl hquiesced⟩, (by decide : 3 < 4)⟩
  | sleep => exact ⟨_, ⟨rfl, .inl hquiesced⟩, (by decide : 3 < 4)⟩

theorem thread_exit {pc : Pc} (h : s.Leaving pc) : (s.threadStep .met pc).thread = none ∨
    ∃ pc', (s.threadStep .met pc).Leaving pc' ∧ exitRank pc' < exitRank pc := by
  have hstopped := h.stopped
  cases pc with
  | loop =>
    have hquiesced := hstopped.resolve_right (by decide)
    rw [threadStep, if_pos hquiesced]
    exact .inr ⟨_, ⟨rfl, .inl hquiesced⟩, by decide⟩
  | reading part got left pc =>
    have hquiesced := hstopped.resolve_right (by cases part <;> simp [Pc.stage])
    exact .inr (read_exit hquiesced)
  | waiting command =>
    have hquiesced := hstopped.resolve_right (by simp [Pc.stage])
    have heq : s.threadStep .met (.waiting command) = s.goto (.consuming command true) := by
      rw [System.threadStep]
      split_ifs <;> rfl
    rw [heq]
    exact .inr ⟨_, ⟨rfl, .inl hquiesced⟩, (by decide : 5 < 6)⟩
  | consuming command met =>
    have hquiesced := hstopped.resolve_right (by simp [Pc.stage])
    exact .inr ⟨_, ⟨rfl, .inl hquiesced⟩, (by decide : 4 < 5)⟩
  | pushing command met =>
    have hquiesced := hstopped.resolve_right (by simp [Pc.stage])
    refine .inr ⟨_, ⟨rfl, .inl hquiesced⟩, ?_⟩
    cases met <;> exact (by decide : 3 < 4)
  | running command =>
    have hquiesced := hstopped.resolve_right (by simp [Pc.stage])
    exact .inr ⟨_, ⟨rfl, .inl hquiesced⟩, (by decide : 2 < 3)⟩
  | faulting command =>
    have hquiesced := hstopped.resolve_right (by simp [Pc.stage])
    exact .inr ⟨_, ⟨rfl, .inl hquiesced⟩, (by decide : 2 < 3)⟩
  | rewinding => exact .inr ⟨_, ⟨rfl, .inr (by decide : 0 ≤ 1)⟩, by decide⟩
  | unmapping => exact .inl rfl

/-- A stopped thread exits. -/
theorem exists_run_exit (n : ℕ) : ∀ (s : System) (pc : Pc), s.Leaving pc → exitRank pc ≤ n →
    ∃ j t, Execution (Steps length cmds) s (List.replicate j (.thread .met)) t ∧ t.thread = none ∧
      t.fifo.node.written = s.fifo.node.written := by
  induction n with
  | zero =>
    intro s pc h hn
    rcases thread_exit h with hnone | ⟨pc', -, hlt⟩
    · exact ⟨1, _, .single (steps_thread h.thread_eq .met), hnone, threadStep_written _ _ _⟩
    · omega
  | succ n ih =>
    intro s pc h hn
    rcases thread_exit h with hnone | ⟨pc', h', hlt⟩
    · exact ⟨1, _, .single (steps_thread h.thread_eq .met), hnone, threadStep_written _ _ _⟩
    · obtain ⟨j, t, hrun, hnone, hnode⟩ := ih (s.threadStep .met pc) pc' h' (by omega)
      have hfirst : Execution (Steps length cmds) s [.thread .met] (s.threadStep .met pc) :=
        .single (steps_thread h.thread_eq .met)
      exact ⟨j + 1, t, hfirst.trans hrun, hnone, hnode.trans (threadStep_written _ _ _)⟩

/-- Whatever the thread is doing, it can go on to run every command that is published. -/
theorem exists_run {m : ℕ} (hlength : length ≠ 0)
    (hframed : ∀ raw ∈ cmds, WellFramed length.toNat raw) (h : s.Inv length cmds)
    (hm : m ≤ cmds.length)
    (hwritten : (cmds.take m).flatten.length ≤ s.fifo.node.written.toNat) :
    ∃ bs t, Execution (Steps length cmds) s bs t ∧
      (∀ b ∈ bs, b = .start ∨ b = .thread .met) ∧ m ≤ t.log.length := by
  have hmet : ∀ (j : ℕ), ∀ b ∈ List.replicate j (Action.thread .met),
      b = .start ∨ b = .thread .met := fun j b hb => .inr (List.eq_of_mem_replicate hb)
  have hstart : ∀ (u : System), u.Inv length cmds → u.thread = none →
      (cmds.take m).flatten.length ≤ u.fifo.node.written.toNat →
      ∃ j t, Execution (Steps length cmds) u (.start :: List.replicate j (.thread .met)) t ∧
        m ≤ t.log.length := by
    intro u hu hnone hpublished
    have hstep : Steps length cmds u .start { u with
        fifo := u.fifo.mapLength length, quiesced := false, thread := some .loop } := by
      rw [Steps, System.step, hnone]
    obtain ⟨j, t, hrun, hlog⟩ := exists_run_live hlength hframed hm _ _ .loop
      (hu.start hlength hnone) ⟨rfl, rfl, by decide⟩ hpublished le_rfl
    exact ⟨j, t, (Execution.single hstep).trans hrun, hlog⟩
  cases hpc : s.thread with
  | none =>
    obtain ⟨j, t, hrun, hlog⟩ := hstart s h hpc hwritten
    refine ⟨_, t, hrun, fun b hb => ?_, hlog⟩
    rcases List.mem_cons.mp hb with rfl | hb
    · exact .inl rfl
    · exact hmet j b hb
  | some pc =>
    by_cases hlive : s.quiesced = false ∧ 1 < pc.stage
    · obtain ⟨j, t, hrun, hlog⟩ := exists_run_live hlength hframed hm _ s pc h
        ⟨hpc, hlive.1, hlive.2⟩ hwritten le_rfl
      exact ⟨_, t, hrun, hmet j, hlog⟩
    · have hleaving : s.Leaving pc := by
        refine ⟨hpc, ?_⟩
        cases hq : s.quiesced
        · exact .inr (not_lt.mp fun hlt => hlive ⟨hq, hlt⟩)
        · exact .inl rfl
      obtain ⟨j, u, hexit, hnone, hnode⟩ := exists_run_exit _ s pc hleaving le_rfl
      have hu : u.Inv length cmds :=
        hexit.invariant h fun _ _ _ hi hs => hi.step hlength hframed hs
      obtain ⟨j', t, hrun, hlog⟩ := hstart u hu hnone (by rw [hnode]; exact hwritten)
      refine ⟨_, t, hexit.trans hrun, fun b hb => ?_, hlog⟩
      rcases List.mem_append.mp hb with hb | hb
      · exact hmet j b hb
      · rcases List.mem_cons.mp hb with rfl | hb
        · exact .inl rfl
        · exact hmet j' b hb

end Progress

/-! ### Commands refused -/

/-- The command at hand, if its wait is over, was not refused. -/
def Granted : Pc → Prop
  | .consuming _ met => met = true
  | .pushing _ met => met = true
  | .faulting _ => False
  | _ => True

/-- No command was refused. -/
structure Unrefused (s : System) : Prop where
  log_eq : ∀ entry ∈ s.log, entry.2 = true
  granted : ∀ pc, s.thread = some pc → Granted pc

theorem Unrefused.goto {s : System} (h : s.Unrefused) {pc : Pc} (hpc : Granted pc) :
    (s.goto pc).Unrefused :=
  ⟨h.log_eq, fun _ heq => Option.some.inj heq ▸ hpc⟩

theorem granted_readDone (ringLength : ℕ) (part : Part) (got : List UInt8) :
    Granted (readDone ringLength part got) := by
  cases part with
  | header =>
    rw [readDone]
    split
    · trivial
    · trivial
    · split_ifs <;> trivial
  | barriers header =>
    rw [readDone]
    split <;> trivial
  | payload header barriers => trivial

theorem Unrefused.readStep {s : System} (h : s.Unrefused) (part : Part) (got : List UInt8)
    (left : ℕ) (pc : ReadPc) : (s.readStep part got left pc).Unrefused := by
  cases pc with
  | check =>
    rw [System.readStep]
    split_ifs
    · exact h.goto (by cases part <;> trivial)
    · exact h.goto trivial
  | load =>
    rw [readStep_load]
    split_ifs
    · exact ⟨h.log_eq, fun _ heq => Option.some.inj heq ▸ trivial⟩
    · exact h.goto (granted_readDone _ _ _)
    · exact ⟨h.log_eq, fun _ heq => Option.some.inj heq ▸ trivial⟩
    · exact ⟨h.log_eq, fun _ heq => Option.some.inj heq ▸ trivial⟩
  | copy count => exact ⟨h.log_eq, fun _ heq => Option.some.inj heq ▸ trivial⟩
  | sleep => exact ⟨h.log_eq, fun _ heq => Option.some.inj heq ▸ trivial⟩

theorem Unrefused.threadStep {s : System} (h : s.Unrefused) {pc : Pc} (hpc : s.thread = some pc)
    {r : WaitResult} (hr : r ≠ .raised) : (s.threadStep r pc).Unrefused := by
  have hgranted := h.granted pc hpc
  cases pc with
  | loop =>
    rw [System.threadStep]
    split_ifs <;> exact h.goto trivial
  | reading part got left pc => exact h.readStep part got left pc
  | waiting command =>
    cases r with
    | met =>
      rw [System.threadStep]
      split_ifs <;> exact h.goto rfl
    | unmet =>
      rw [System.threadStep]
      split_ifs
      · exact h.goto rfl
      · exact h.goto trivial
    | raised => exact absurd rfl hr
  | consuming command met => exact ⟨h.log_eq, fun _ heq => Option.some.inj heq ▸ hgranted⟩
  | pushing command met =>
    obtain rfl : met = true := hgranted
    exact h.goto trivial
  | running command =>
    refine ⟨fun entry hentry => ?_, fun _ heq => Option.some.inj heq ▸ trivial⟩
    rcases List.mem_append.mp hentry with hentry | hentry
    · exact h.log_eq entry hentry
    · rw [List.mem_singleton.mp hentry]
  | faulting command => exact hgranted.elim
  | rewinding => exact ⟨h.log_eq, fun _ heq => Option.some.inj heq ▸ trivial⟩
  | unmapping => exact ⟨h.log_eq, fun _ heq => by cases heq⟩

theorem Unrefused.step {s t : System} {length : UInt32} {stream : List UInt8} {a : Action}
    (h : s.Unrefused) (ha : a ≠ .thread .raised) (hstep : s.step length stream a = some t) :
    t.Unrefused := by
  cases a with
  | fill =>
    rw [System.step] at hstep
    split at hstep
    next byte hbyte =>
      split_ifs at hstep
      obtain rfl := Option.some.inj hstep
      exact ⟨h.log_eq, h.granted⟩
    next => cases hstep
  | publish written =>
    rw [System.step] at hstep
    split_ifs at hstep
    obtain rfl := Option.some.inj hstep
    exact ⟨h.log_eq, h.granted⟩
  | stop =>
    obtain rfl := Option.some.inj hstep
    exact ⟨h.log_eq, h.granted⟩
  | start =>
    rw [System.step] at hstep
    split at hstep
    next =>
      obtain rfl := Option.some.inj hstep
      exact ⟨h.log_eq, fun _ heq => Option.some.inj heq ▸ trivial⟩
    next => cases hstep
  | thread r =>
    rw [System.step] at hstep
    obtain ⟨pc, hpc, rfl⟩ := Option.map_eq_some_iff.mp hstep
    exact h.threadStep hpc fun hr => ha (congrArg Action.thread hr)

theorem Unrefused.dispatched_eq {s : System} (h : s.Unrefused) :
    s.dispatched = s.log.map Prod.fst := by
  rw [dispatched, List.filterMap_congr (g := fun entry => some entry.1) ?_]
  · exact congrFun (List.filterMap_eq_map (f := Prod.fst)) s.log
  · intro entry hentry
    rw [if_pos (h.log_eq entry hentry)]

/-! ### Every run -/

theorem inv_init (length : UInt32) (cmds : List (List UInt8)) : ({} : System).Inv length cmds where
  ring :=
    { advanced_eq := rfl
      published_eq := rfl
      last_eq := rfl
      total_le := le_rfl
      read_le := le_rfl
      cache_le := le_rfl
      written_le := le_rfl
      filled_le := Nat.zero_le _
      filled_le_stream := Nat.zero_le _
      memory_eq := fun i _ hi => absurd hi (Nat.not_lt_zero i) }
  thread := ⟨rfl, rfl⟩

theorem Inv.log_eq {length : UInt32} {cmds : List (List UInt8)} {s : System}
    (h : s.Inv length cmds) : s.log.map Prod.fst = (cmds.take s.log.length).map Command.ofRaw ∧
      s.log.length ≤ s.advanced.length ∧ s.advanced.length ≤ s.log.length + 1 := by
  have hsplit : ∃ rest : List Command, s.advanced = s.log.map Prod.fst ++ rest ∧
      rest.length ≤ 1 := by
    have hthread := h.thread
    cases hpc : s.thread with
    | none =>
      rw [hpc] at hthread
      exact ⟨[], hthread.2.trans (List.append_nil _).symm, Nat.zero_le _⟩
    | some pc =>
      rw [hpc] at hthread
      exact ⟨pc.owed, hthread.2.2.1, by cases pc <;> simp [Pc.owed]⟩
  obtain ⟨rest, heq, hrest⟩ := hsplit
  have hlength : s.advanced.length = s.log.length + rest.length := by
    rw [heq, List.length_append, List.length_map]
  refine ⟨?_, by omega, by omega⟩
  have htake : s.log.map Prod.fst = s.advanced.take s.log.length := by
    rw [heq, ← List.length_map (f := Prod.fst), List.take_left]
  rw [htake, h.ring.advanced_eq, ← List.map_take, List.take_take, min_eq_left (by omega)]

/-- Over every interleaving of the guest's writes, the device's stops and starts and the thread's
steps: the published count is the length of the commands advanced over, which are the stream's first
ones; all of them but the last, at most, are run or refused, in order, and where no wait has raised
they are run; a command that has been read whole is the stream's next one, and one that has been
read in part is read again from its first byte, the thread's exit leaving its cursor at the
published count. The thread, started again where it has stopped, runs every command published. -/
theorem stream_runs_in_order {length : UInt32} (hlength : length ≠ 0)
    {cmds : List (List UInt8)} (hframed : ∀ raw ∈ cmds, WellFramed length.toNat raw)
    {as : List Action} {s : System}
    (h : Execution (Steps length cmds) {} as s) :
    s.fifo.node.readCount.toNat = (cmds.take s.advanced.length).flatten.length ∧
    s.advanced = (cmds.take s.advanced.length).map Command.ofRaw ∧
    s.log.map Prod.fst = (cmds.take s.log.length).map Command.ofRaw ∧
    s.log.length ≤ s.advanced.length ∧ s.advanced.length ≤ s.log.length + 1 ∧
    (.thread .raised ∉ as → s.dispatched = (cmds.take s.log.length).map Command.ofRaw) ∧
    (∀ command, s.thread = some (.waiting command) →
      cmds[s.advanced.length]?.map Command.ofRaw = some command) ∧
    (s.thread = none → s.fifo.ring.readCount = s.fifo.node.readCount) ∧
    ∀ m ≤ cmds.length, (cmds.take m).flatten.length ≤ s.fifo.node.written.toNat →
      ∃ bs t, Execution (Steps length cmds) s bs t ∧
        (∀ b ∈ bs, b = .start ∨ b = .thread .met) ∧ m ≤ t.log.length := by
  have hinv : s.Inv length cmds :=
    h.invariant (inv_init length cmds) fun _ _ _ hi hs => hi.step hlength hframed hs
  have hthread := hinv.thread
  obtain ⟨hlog, hle, hge⟩ := hinv.log_eq
  refine ⟨hinv.ring.published_eq, hinv.ring.advanced_eq, hlog, hle, hge, fun hraised => ?_,
    fun command hpc => ?_, fun hnone => ?_,
    fun m hm hwritten => exists_run hlength hframed hinv hm hwritten⟩
  · have hunrefused : Action.thread .raised ∉ as → s.Unrefused := by
      refine h.history (P := fun as s => Action.thread .raised ∉ as → s.Unrefused)
        (fun _ => ⟨fun _ hc => absurd hc List.not_mem_nil, fun _ hc => by cases hc⟩) ?_
      intro as s a t ih hstep hnot
      rw [List.mem_append, not_or, List.mem_singleton] at hnot
      exact (ih hnot.1).step (Ne.symm hnot.2) hstep
    rw [(hunrefused hraised).dispatched_eq, hlog]
  · rw [hpc] at hthread
    obtain ⟨-, -, -, raw, hraw, hcommand, -⟩ := hthread
    rw [hraw, hcommand]
    rfl
  · rw [hnone] at hthread
    have hread := hinv.ring.read_eq
    rw [hthread.1, ← hinv.ring.published_eq] at hread
    exact UInt32.toNat_inj.mp hread

/-- A command of one barrier and three bytes of payload, and one of a header alone. -/
def sampleCommands : List (List UInt8) :=
  [[7, 0, 1, 0, 23, 0, 0, 0, 1, 0, 0, 0, 0, 0, 0, 0, 1, 0, 0, 0, 5, 6, 7],
    [8, 0, 0, 0, 12, 0, 0, 0, 2, 0, 0, 0]]

/-- The first command is read whole, its wait ends unmet, and it is read again after a start; the
second wraps. -/
def sampleActions : List Action :=
  List.replicate 24 .fill ++ [.publish 23, .start] ++ List.replicate 16 (.thread .met) ++
    [.stop, .thread .unmet, .thread .met, .thread .met, .start] ++
    List.replicate 20 (.thread .met) ++ List.replicate 11 .fill ++ [.publish 35] ++
    List.replicate 17 (.thread .met)

theorem sample_runs_in_order : ∃ s, Execution (Steps 24 sampleCommands) {} sampleActions s ∧
    s.dispatched = sampleCommands.map Command.ofRaw ∧ s.fifo.node.readCount.toNat = 35 := by
  have hrun : ∃ s, sampleActions.foldlM (step 24 sampleCommands.flatten) ({} : System) =
      some s ∧ s.log.length = 2 ∧ s.advanced.length = 2 := by
    have hsome : ((sampleActions.foldlM (step 24 sampleCommands.flatten) ({} : System)).map
        fun s => (s.log.length, s.advanced.length)) = some (2, 2) := by
      decide +kernel
    obtain ⟨s, hs, hlengths⟩ := Option.map_eq_some_iff.mp hsome
    injection hlengths with hlog hadvanced
    exact ⟨s, hs, hlog, hadvanced⟩
  obtain ⟨s, hs, hlog, hadvanced⟩ := hrun
  have hexec : Execution (Steps 24 sampleCommands) {} sampleActions s :=
    Execution.of_foldlM_option (step 24 sampleCommands.flatten) sampleActions hs
  have hframed : ∀ raw ∈ sampleCommands, WellFramed (24 : UInt32).toNat raw := by
    intro raw hraw
    rcases List.mem_pair.mp hraw with rfl | rfl
    · exact ⟨by decide, by decide, by decide, by decide, by decide⟩
    · exact ⟨by decide, by decide, by decide, by decide, by decide⟩
  obtain ⟨hread, -, -, -, -, hdispatched, -⟩ :=
    stream_runs_in_order (by decide) hframed hexec
  refine ⟨s, hexec, ?_, ?_⟩
  · rw [hdispatched (by decide), hlog]
    rfl
  · rw [hread, hadvanced]
    rfl

end System

end ReimsVgpu.Fifo
