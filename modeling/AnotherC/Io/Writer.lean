import AnotherC.Io.Framing

/-!
# The writer's buffer: `ac_out_write` over `write` and `gzwrite`

`Framing` takes it that a write to the file takes all bytes at once. Here one call of
`write` or of `gzwrite` may take fewer, and the loops `_write_to_fd` and `_write_to_gz`
go on with the rest. With a back end that takes at least one byte at each call the
buffering cannot be seen (`buffering_transparent`), and no copy leaves the buffer.
-/
namespace AnotherC.Writer
set_option linter.unusedVariables false

/-- What the bytes are handed to. `handed` are those that it took, and `valid` says that
    `fd` is not -1, and `gz` not `NULL`. -/
structure Device (σ : Type) where
  state : σ
  handed : List UInt8
  valid : Bool
deriving Repr, DecidableEq

/-- The functions that `write_d` is set to. -/
inductive BackEnd
  | plain
  | gz
deriving Repr, DecidableEq

inductive Stop
  /-- `abort`. -/
  | aborted
  /-- A `memcpy` that leaves the buffer, or the chunk. -/
  | beyond
  /-- A loop that does not end. -/
  | endless
deriving Repr, DecidableEq

/-- `ac_out_t`; `buffer` are the first `buffer_pos` bytes of the buffer. -/
structure Out (σ : Type) where
  type : Nat
  buffer : List UInt8
  bufferSize : Nat
  device : Device σ
  writeD : Option BackEnd
  abortOnError : Bool
deriving Repr, DecidableEq

/-- `_ac_out_init`. -/
def acOutInit {σ : Type} (state : σ) (bufferSize : Nat) (abortOnError : Bool) : Out σ :=
  ⟨0,[],bufferSize,⟨state,[],true⟩,some .plain,abortOnError⟩

/-- `_ac_out_init_gz`. -/
def acOutInitGz {σ : Type} (state : σ) (bufferSize : Nat) (abortOnError : Bool) : Out σ :=
  ⟨0,[],if bufferSize < 64 * 1024 then 64 * 1024 else bufferSize,⟨state,[],true⟩,some .gz,abortOnError⟩

def BackEnd.init {σ : Type} : BackEnd → σ → Nat → Bool → Out σ
  | .plain => acOutInit
  | .gz => acOutInitGz

/-- `memcpy` of `n` bytes of `d` behind those in the buffer. -/
def memcpy {σ : Type} (h : Out σ) (d : List UInt8) (n : Nat) : Except Stop (Out σ) :=
  if n ≤ d.length ∧ h.buffer.length + n ≤ h.bufferSize then .ok { h with buffer := h.buffer ++ d.take n }
  else .error .beyond

section
variable {σ : Type} (write : σ → List UInt8 → Int × σ)

/-- What one call is asked to take of `p`. -/
def request (p : List UInt8) : List UInt8 := if p.length > 0x7FFFFFFF then p.take 0x7FFFFFFF else p

/-- The loop of `_write_to_fd` and of `_write_to_gz`. -/
def handOut (p : List UInt8) (device : Device σ) : Bool × Device σ :=
  if more : p = [] then (true,device)
  else if positive : 0 < (write device.state (request p)).1 then
    let wrote := write device.state (request p)
    handOut (p.drop wrote.1.toNat) { device with state := wrote.2, handed := device.handed ++ p.take wrote.1.toNat }
  else (false,{ device with state := (write device.state (request p)).2 })
termination_by p.length
decreasing_by
  have := List.length_pos_iff.mpr more
  simp only [List.length_drop]
  omega

/-- `_write_to_fd`, after which a caller that fails sets `fd` to -1. -/
def writeToFd (h : Out σ) (p : List UInt8) : Bool × Out σ :=
  let wrote := handOut write p h.device
  if wrote.1 then (true,{ h with device := wrote.2 }) else (false,{ h with device := { wrote.2 with valid := false } })

/-- `_write_to_gz`, which closes the stream when it fails. -/
def writeToGz (h : Out σ) (p : List UInt8) : Bool × Out σ :=
  let wrote := handOut write p h.device
  if wrote.1 then (true,{ h with device := wrote.2 }) else (false,{ h with device := { wrote.2 with valid := false } })

/-- `_ac_out_write`. -/
def acOutWritePlain (h : Out σ) (d : List UInt8) : Except Stop (Bool × Out σ) :=
  if h.buffer.length + d.length < h.bufferSize then
    if d.length ≠ 0 then (memcpy h d d.length).map fun h => (true,h)
    else
      let wrote := writeToFd write h h.buffer
      .ok (wrote.1,if wrote.1 then { wrote.2 with buffer := [] } else wrote.2)
  else
    let diff := h.bufferSize - h.buffer.length
    (memcpy h d diff).bind fun h =>
      let wrote := writeToFd write h h.buffer
      if wrote.1 then
        let h := { wrote.2 with buffer := [] }
        let p := d.drop diff
        if p.length ≥ h.bufferSize then .ok (writeToFd write h p) else (memcpy h p p.length).map fun h => (true,h)
      else .ok wrote

/-- The blocks of `_ac_out_write_gz` that do not pass through the buffer, and what is left of `p`. -/
def writeBlocks (h : Out σ) (p : List UInt8) : Except Stop (Bool × Out σ × List UInt8) :=
  if p.length ≥ h.bufferSize then
    if h.bufferSize = 0 then .error .endless
    else
      let wrote := writeToGz write h (p.take h.bufferSize)
      if wrote.1 then writeBlocks wrote.2 (p.drop h.bufferSize) else .ok (false,wrote.2,p)
  else .ok (true,h,p)
termination_by p.length
decreasing_by
  simp only [List.length_drop]
  omega

/-- `_ac_out_write_gz`. -/
def acOutWriteGz (h : Out σ) (d : List UInt8) : Except Stop (Bool × Out σ) :=
  if h.buffer.length + d.length < h.bufferSize then
    (memcpy h d d.length).bind fun h =>
      if d.length ≠ 0 then .ok (true,h)
      else
        let wrote := writeToGz write h h.buffer
        .ok (wrote.1,if wrote.1 then { wrote.2 with buffer := [] } else wrote.2)
  else
    let diff := h.bufferSize - h.buffer.length
    (memcpy h d diff).bind fun h =>
      let wrote := writeToGz write h h.buffer
      if wrote.1 then
        (writeBlocks write { wrote.2 with buffer := [] } (d.drop diff)).bind fun blocks =>
          if blocks.1 then
            let p := blocks.2.2
            if p.length ≠ 0 then (memcpy blocks.2.1 p p.length).map fun h => (true,h) else .ok (true,blocks.2.1)
          else .ok (false,blocks.2.1)
      else .ok wrote

def BackEnd.call : BackEnd → Out σ → List UInt8 → Except Stop (Bool × Out σ)
  | .plain => acOutWritePlain write
  | .gz => acOutWriteGz write

/-- The call of `write_d` in `ac_out_write` and in `ac_out_flush`. -/
def callWriteD (h : Out σ) (d : List UInt8) : Except Stop (Bool × Out σ) :=
  match h.writeD with
  | none => if h.abortOnError then .error .aborted else .ok (false,h)
  | some backEnd => (backEnd.call write h d).bind fun wrote =>
    if wrote.1 then .ok wrote
    else if h.abortOnError then .error .aborted
    else .ok (false,{ wrote.2 with writeD := none })

def acOutWrite (h : Out σ) (d : List UInt8) : Except Stop (Bool × Out σ) :=
  if h.type ≠ 0 then .ok (false,h)
  else if d.length = 0 then .ok (true,h)
  else callWriteD write h d

def acOutFlush (h : Out σ) : Except Stop (Bool × Out σ) := callWriteD write h []

/-- One `ac_out_write` for each chunk, and what they answer. -/
def writeChunks (h : Out σ) : List (List UInt8) → Except Stop (List Bool × Out σ)
  | [] => .ok ([],h)
  | d :: chunks => (acOutWrite write h d).bind fun wrote =>
    (writeChunks wrote.2 chunks).map fun rest => (wrote.1 :: rest.1,rest.2)

/-- Each call takes at least one of the bytes that it is given. -/
def Accepts : Prop := ∀ state p, p ≠ [] → 0 < (write state p).1 ∧ (write state p).1 ≤ p.length

variable {write}

/-- The bytes so far, also those that still are in the buffer. -/
def written (h : Out σ) : List UInt8 := h.device.handed ++ h.buffer

/-- An output in which nothing has failed. -/
structure Ready (backEnd : BackEnd) (h : Out σ) : Prop where
  normal : h.type = 0
  opened : h.writeD = some backEnd
  fits : h.buffer.length ≤ h.bufferSize
  room : backEnd = .gz → 0 < h.bufferSize

/-- A call that succeeds: what it was given is written, the output is `Ready` again, and
    without bytes it empties the buffer. -/
def Writes (backEnd : BackEnd) (h : Out σ) (d : List UInt8) (result : Except Stop (Bool × Out σ)) : Prop :=
  ∃ h', result = .ok (true,h') ∧ Ready backEnd h' ∧ written h' = written h ++ d ∧ (d = [] → h'.buffer = [])

theorem request_more {p : List UInt8} (more : p ≠ []) : request p ≠ [] := by
  unfold request
  split
  case isTrue long =>
    intro none
    have := congrArg List.length none
    simp only [List.length_take,List.length_nil] at this
    omega
  case isFalse => exact more

theorem handOut_all (accepts : Accepts write) (p : List UInt8) (device : Device σ) :
    ∃ state, handOut write p device = (true,{ device with state := state, handed := device.handed ++ p }) := by
  induction p, device using handOut.induct write with
  | case1 device =>
    refine ⟨device.state,?_⟩
    rw [handOut,dif_pos rfl,List.append_nil]
  | case2 p device more positive wrote ih =>
    obtain ⟨state,rest⟩ := ih
    refine ⟨state,?_⟩
    rw [handOut,dif_neg more,dif_pos positive]
    simp only [List.append_assoc,wrote,List.take_append_drop] at rest
    exact rest
  | case3 p device more refused =>
    exact absurd (accepts device.state (request p) (request_more more)).1 refused

theorem writeToFd_all (accepts : Accepts write) (h : Out σ) (p : List UInt8) :
    ∃ state, writeToFd write h p =
      (true,{ h with device := { h.device with state := state, handed := h.device.handed ++ p } }) := by
  obtain ⟨state,all⟩ := handOut_all accepts p h.device
  exact ⟨state,by simp only [writeToFd,all,if_true]⟩

theorem writeToGz_all (accepts : Accepts write) (h : Out σ) (p : List UInt8) :
    ∃ state, writeToGz write h p =
      (true,{ h with device := { h.device with state := state, handed := h.device.handed ++ p } }) :=
  writeToFd_all accepts h p

theorem memcpy_fits {h : Out σ} {d : List UInt8} {n : Nat} (enough : n ≤ d.length)
    (fits : h.buffer.length + n ≤ h.bufferSize) : memcpy h d n = .ok { h with buffer := h.buffer ++ d.take n } := by
  rw [memcpy,if_pos ⟨enough,fits⟩]

/-- `_ac_out_write` as in `Framing`, where the file takes all bytes at once. -/
theorem acOutWritePlain_writes (accepts : Accepts write) {h : Out σ} (ready : Ready .plain h) (d : List UInt8)
    (format : Framing.Format) :
    ∃ h', acOutWritePlain write h d = .ok (true,h') ∧ Ready .plain h' ∧ (d = [] → h'.buffer = []) ∧
      (⟨h'.buffer,h'.bufferSize,h'.device.handed,format⟩ : Framing.Out) =
        Framing.writeD ⟨h.buffer,h.bufferSize,h.device.handed,format⟩ d := by
  have fits := ready.fits
  unfold acOutWritePlain Framing.writeD
  by_cases short : h.buffer.length + d.length < h.bufferSize
  · rw [if_pos short,if_pos short]
    by_cases none : d.length ≠ 0
    · rw [if_pos none,if_pos none,memcpy_fits (Nat.le_refl _) (Nat.le_of_lt short),List.take_length]
      refine ⟨{ h with buffer := h.buffer ++ d },rfl,⟨ready.normal,ready.opened,?_,nofun⟩,?_,rfl⟩
      · simp only [List.length_append]
        exact Nat.le_of_lt short
      · intro empty
        exact absurd (by rw [empty]; rfl) none
    · rw [if_neg none,if_neg none]
      obtain ⟨state,all⟩ := writeToFd_all accepts h h.buffer
      simp only [all,if_true]
      exact ⟨_,rfl,⟨ready.normal,ready.opened,Nat.zero_le _,nofun⟩,fun _ => rfl,rfl⟩
  · rw [if_neg short,if_neg short]
    dsimp only
    rw [memcpy_fits (by omega) (by omega)]
    dsimp only [Except.bind]
    obtain ⟨state,all⟩ := writeToFd_all accepts
      { h with buffer := h.buffer ++ d.take (h.bufferSize - h.buffer.length) }
      (h.buffer ++ d.take (h.bufferSize - h.buffer.length))
    simp only [all,if_true]
    split
    case isTrue large =>
      obtain ⟨state',rest⟩ := writeToFd_all accepts
        { h with
          device := { h.device with
            state := state, handed := h.device.handed ++ (h.buffer ++ d.take (h.bufferSize - h.buffer.length)) },
          buffer := [] } (d.drop (h.bufferSize - h.buffer.length))
      exact ⟨_,congrArg _ rest,⟨ready.normal,ready.opened,Nat.zero_le _,nofun⟩,fun _ => rfl,rfl⟩
    case isFalse small =>
      rw [memcpy_fits (Nat.le_refl _) (by simp only [List.length_nil]; omega)]
      refine ⟨_,rfl,⟨ready.normal,ready.opened,?_,nofun⟩,?_,?_⟩
      · simp only [List.take_length,List.nil_append]
        omega
      · rintro rfl
        simp only [List.drop_nil,List.length_nil,List.take_nil,List.nil_append]
      · simp only [List.take_length,List.nil_append]

theorem plain_writes (accepts : Accepts write) {h : Out σ} (ready : Ready .plain h) (d : List UInt8) :
    Writes .plain h d (acOutWritePlain write h d) := by
  obtain ⟨h',wrote,ready',empty,same⟩ := acOutWritePlain_writes accepts ready d 0
  refine ⟨h',wrote,ready',?_,empty⟩
  have all := Framing.writeD_written ⟨h.buffer,h.bufferSize,h.device.handed,0⟩ d
  rw [← same] at all
  exact all

/-- The loop leaves less than a buffer of `p`. -/
theorem writeBlocks_all (accepts : Accepts write) (h : Out σ) (p : List UInt8) (room : 0 < h.bufferSize) :
    ∃ state blocks rest, p = blocks ++ rest ∧ rest.length < h.bufferSize ∧ writeBlocks write h p =
      .ok (true,{ h with device := { h.device with state := state, handed := h.device.handed ++ blocks } },rest) := by
  induction p using (measure List.length).wf.induction generalizing h with
  | _ p ih =>
    unfold writeBlocks
    by_cases large : p.length ≥ h.bufferSize
    · obtain ⟨state,all⟩ := writeToGz_all accepts h (p.take h.bufferSize)
      have shorter : (p.drop h.bufferSize).length < p.length := by
        rw [List.length_drop]
        omega
      obtain ⟨state',blocks,rest,parts,small,loop⟩ := ih (p.drop h.bufferSize) shorter
        { h with device := { h.device with state := state, handed := h.device.handed ++ p.take h.bufferSize } } room
      refine ⟨state',p.take h.bufferSize ++ blocks,rest,?_,small,?_⟩
      · rw [List.append_assoc,← parts,List.take_append_drop]
      · rw [if_pos large,if_neg (Nat.ne_of_gt room)]
        simp only [all,if_true,loop,List.append_assoc]
    · exact ⟨h.device.state,[],p,rfl,Nat.lt_of_not_le large,by rw [if_neg large,List.append_nil]⟩

theorem gz_writes (accepts : Accepts write) {h : Out σ} (ready : Ready .gz h) (d : List UInt8) :
    Writes .gz h d (acOutWriteGz write h d) := by
  have fits := ready.fits
  have room := ready.room rfl
  unfold acOutWriteGz
  by_cases short : h.buffer.length + d.length < h.bufferSize
  · rw [if_pos short,memcpy_fits (Nat.le_refl _) (Nat.le_of_lt short),List.take_length]
    dsimp only [Except.bind]
    by_cases none : d.length ≠ 0
    · rw [if_pos none]
      refine ⟨{ h with buffer := h.buffer ++ d },rfl,⟨ready.normal,ready.opened,?_,ready.room⟩,?_,?_⟩
      · simp only [List.length_append]
        exact Nat.le_of_lt short
      · simp only [written,List.append_assoc]
      · intro empty
        exact absurd (by rw [empty]; rfl) none
    · rw [if_neg none]
      obtain ⟨state,all⟩ := writeToGz_all accepts { h with buffer := h.buffer ++ d } (h.buffer ++ d)
      simp only [all,if_true]
      refine ⟨_,rfl,⟨ready.normal,ready.opened,Nat.zero_le _,ready.room⟩,?_,fun _ => rfl⟩
      simp only [written,List.append_nil,List.append_assoc]
  · rw [if_neg short]
    dsimp only
    rw [memcpy_fits (by omega) (by omega)]
    dsimp only [Except.bind]
    obtain ⟨state,all⟩ := writeToGz_all accepts
      { h with buffer := h.buffer ++ d.take (h.bufferSize - h.buffer.length) }
      (h.buffer ++ d.take (h.bufferSize - h.buffer.length))
    simp only [all,if_true]
    obtain ⟨state',blocks,rest,parts,small,loop⟩ := writeBlocks_all accepts
      { h with
        device := { h.device with
          state := state, handed := h.device.handed ++ (h.buffer ++ d.take (h.bufferSize - h.buffer.length)) },
        buffer := [] } (d.drop (h.bufferSize - h.buffer.length)) room
    simp only [loop,if_true]
    have whole : d = d.take (h.bufferSize - h.buffer.length) ++ (blocks ++ rest) := by
      rw [← parts,List.take_append_drop]
    have copied : h.device.handed ++ (h.buffer ++ d.take (h.bufferSize - h.buffer.length)) ++ blocks ++ rest =
        h.device.handed ++ h.buffer ++ d := by
      conv => right; rw [whole]
      simp only [List.append_assoc]
    by_cases more : rest.length ≠ 0
    · have space : ([] : List UInt8).length + rest.length ≤ h.bufferSize := by
        rw [List.length_nil,Nat.zero_add]
        exact Nat.le_of_lt small
      rw [if_pos more,memcpy_fits (Nat.le_refl _) space]
      refine ⟨_,rfl,⟨ready.normal,ready.opened,?_,ready.room⟩,?_,?_⟩
      · simp only [List.take_length,List.nil_append]
        exact Nat.le_of_lt small
      · simp only [written,List.take_length,List.nil_append]
        exact copied
      · rintro rfl
        simp only [List.drop_nil] at parts
        exact absurd (by rw [(List.append_eq_nil_iff.mp parts.symm).2]; rfl) more
    · rw [if_neg more]
      obtain rfl := List.length_eq_zero_iff.mp (not_not.mp more)
      refine ⟨_,rfl,⟨ready.normal,ready.opened,Nat.zero_le _,ready.room⟩,?_,fun _ => rfl⟩
      simpa only [written,List.append_nil] using copied

theorem callWriteD_writes (accepts : Accepts write) {backEnd : BackEnd} {h : Out σ} (ready : Ready backEnd h)
    (d : List UInt8) : Writes backEnd h d (callWriteD write h d) := by
  have call : Writes backEnd h d (backEnd.call write h d) := by
    cases backEnd with
    | plain => exact plain_writes accepts ready d
    | gz => exact gz_writes accepts ready d
  obtain ⟨h',wrote,rest⟩ := call
  refine ⟨h',?_,rest⟩
  simp only [callWriteD,ready.opened,wrote,Except.bind,if_true]

theorem acOutWrite_writes (accepts : Accepts write) {backEnd : BackEnd} {h : Out σ} (ready : Ready backEnd h)
    (d : List UInt8) :
    ∃ h', acOutWrite write h d = .ok (true,h') ∧ Ready backEnd h' ∧ written h' = written h ++ d := by
  unfold acOutWrite
  rw [if_neg (not_not.mpr ready.normal)]
  split
  case isTrue none => exact ⟨h,rfl,ready,by rw [List.length_eq_zero_iff.mp none,List.append_nil]⟩
  case isFalse =>
    obtain ⟨h',wrote,ready',all,_⟩ := callWriteD_writes accepts ready d
    exact ⟨h',wrote,ready',all⟩

theorem writeChunks_all (accepts : Accepts write) {backEnd : BackEnd} (chunks : List (List UInt8)) {h : Out σ}
    (ready : Ready backEnd h) :
    ∃ h', writeChunks write h chunks = .ok (chunks.map fun _ => true,h') ∧ Ready backEnd h' ∧
      written h' = written h ++ chunks.flatten := by
  induction chunks generalizing h with
  | nil => exact ⟨h,rfl,ready,(List.append_nil _).symm⟩
  | cons d chunks ih =>
    obtain ⟨h₁,wrote,ready₁,one⟩ := acOutWrite_writes accepts ready d
    obtain ⟨h₂,rest,ready₂,all⟩ := ih ready₁
    refine ⟨h₂,?_,ready₂,?_⟩
    · simp only [writeChunks,wrote,Except.bind,rest,Except.map,List.map_cons]
    · rw [all,one,List.flatten_cons,List.append_assoc]

theorem init_ready (backEnd : BackEnd) (state : σ) (bufferSize : Nat) (abortOnError : Bool) :
    Ready backEnd (backEnd.init state bufferSize abortOnError) ∧
      written (backEnd.init state bufferSize abortOnError) = [] := by
  cases backEnd with
  | plain => exact ⟨⟨rfl,rfl,Nat.zero_le _,nofun⟩,rfl⟩
  | gz =>
    refine ⟨⟨rfl,rfl,Nat.zero_le _,fun _ => ?_⟩,rfl⟩
    simp only [BackEnd.init,acOutInitGz]
    split <;> omega

/-- Whatever the chunks and the size of the buffer: every write and the flush succeed, no
    copy leaves the buffer, and the device takes the chunks one after the other. -/
theorem buffering_transparent (accepts : Accepts write) (backEnd : BackEnd) (state : σ) (bufferSize : Nat)
    (abortOnError : Bool) (chunks : List (List UInt8)) :
    ∃ h h', writeChunks write (backEnd.init state bufferSize abortOnError) chunks = .ok (chunks.map fun _ => true,h) ∧
      acOutFlush write h = .ok (true,h') ∧ h'.device.handed = chunks.flatten := by
  obtain ⟨ready,nothing⟩ := init_ready backEnd state bufferSize abortOnError
  obtain ⟨h,wrote,ready₁,all⟩ := writeChunks_all accepts chunks ready
  obtain ⟨h',flushed,_,rest,empty⟩ := callWriteD_writes accepts ready₁ []
  refine ⟨h,h',wrote,flushed,?_⟩
  rw [nothing,List.nil_append] at all
  simpa only [written,empty rfl,List.append_nil,← all] using rest

/-- A device that takes two bytes at a time, and a buffer of three. -/
theorem buffering_transparent_pairs :
    ∃ h h' : Out Nat, writeChunks (fun calls p => (min 2 p.length,calls + 1))
        (acOutInit 0 3 false) [[1],[],[2,3,4,5,6,7],[8,9]] = .ok ([true,true,true,true],h) ∧
      acOutFlush (fun calls p => (min 2 p.length,calls + 1)) h = .ok (true,h') ∧
      h'.device.handed = [1,2,3,4,5,6,7,8,9] := by
  refine buffering_transparent (fun calls p more => ?_) .plain 0 3 false [[1],[],[2,3,4,5,6,7],[8,9]]
  have := List.length_pos_iff.mpr more
  omega

end
end AnotherC.Writer
