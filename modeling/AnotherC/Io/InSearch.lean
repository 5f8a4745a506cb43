import AnotherC.Io.InBase

/-!
# Reading up to a place that is searched for

`ac_in_base_read_delimited` searches the bytes of the buffer piece by piece: what is
buffered, what a refill adds to it, and then whole buffers. Each piece is searched
on its own, by a search that starts afresh. `readWith_spec` says what is read in
terms of the pieces, for any search.
-/
namespace AnotherC.InSearch
open AnotherC.Lib.Bytes
open AnotherC.InBase
set_option linter.unusedVariables false

/-- The loop that gathers a record in `bh`; `none` is `abort`, or that it goes on for
    ever. -/
def gatherWith (find : List UInt8 → Option Nat) (required : Bool) (h : InBase) (bh : List UInt8) :
    Option (Option Found × InBase) :=
  let bh := bh ++ h.buf.buffer
  let filled := fillBlocks { h.buf with buffer := [], pos := 0 } h.file
  let b := filled.1
  match find b.buffer with
  | some i =>
    let bh := bh ++ b.buffer.take i
    if i + 1 > b.buffer.length then none
    else some (some ⟨int32 bh.length,bh⟩,{ h with buf := { b with pos := i + 1 }, file := filled.2, bh := some bh })
  | none =>
    if b.eof then
      let b := { b with pos := b.buffer.length }
      if required then some (none,{ h with buf := b, file := filled.2, bh := none })
      else
        let bh := bh ++ b.buffer
        some (some ⟨int32 bh.length,bh⟩,{ h with buf := b, file := filled.2, bh := some bh })
    else if filled.2.length < h.file.length then gatherWith find required { h with buf := b, file := filled.2 } bh
    else none
termination_by h.file.length

/-- `ac_in_base_read_delimited` with the loop over `p` as a parameter. -/
def readWith (find : List UInt8 → Option Nat) (h : InBase) (required : Bool) : Option (Option Found × InBase) :=
  let h := cleanupLastRead h
  match find (h.buf.buffer.drop h.buf.pos) with
  | some i => foundDelimiter h i
  | none =>
    if h.buf.eof then
      some (endOfBlock { h with buf := { h.buf with pos := h.buf.buffer.length } } (h.buf.buffer.drop h.buf.pos) required)
    else if h.buf.pos > 0 then
      let searched := (h.buf.buffer.drop h.buf.pos).length
      let filled := fillBlocks (resetBlock h.buf) h.file
      let h := { h with buf := filled.1, file := filled.2 }
      match find (h.buf.buffer.drop searched) with
      | some i => foundDelimiter h (searched + i)
      | none =>
        if h.buf.eof then
          some (endOfBlock { h with buf := { h.buf with pos := h.buf.buffer.length } } h.buf.buffer required)
        else gatherWith find required h []
    else gatherWith find required h []

/-! ### Without quoting -/

theorem gatherWith_delimiter (delim : Int) (required : Bool) (h : InBase) (bh : List UInt8) :
    gatherWith (findDelimiter delim) required h bh = gather delim required h bh := by
  induction unread : h.file.length using Nat.strongRecOn generalizing h bh with
  | ind unread ih =>
    rw [gatherWith,gather]
    cases found : findDelimiter delim (fillBlocks { h.buf with buffer := [], pos := 0 } h.file).1.buffer with
    | some i => rfl
    | none =>
      simp only
      by_cases fewer : (fillBlocks { h.buf with buffer := [], pos := 0 } h.file).2.length < h.file.length
      · rw [if_pos fewer,if_pos fewer,ih _ (by rw [← unread]; exact fewer) _ _ rfl]
      · rw [if_neg fewer,if_neg fewer]

/-- The reader for a delimiter is the one that searches for the delimiter. -/
theorem readWith_delimiter (h : InBase) (delim : Int) (required : Bool) :
    readWith (findDelimiter delim) h required = acInBaseReadDelimited h delim required := by
  have gathers : gatherWith (findDelimiter delim) = gather delim := by
    funext required h bh
    exact gatherWith_delimiter delim required h bh
  rw [readWith,gathers]
  rfl

/-! ### Searches -/

/-- A search finds the first place that is a hit; whether a place is one depends on
    the bytes up to it. -/
structure Searches (find : List UInt8 → Option Nat) (hit : List UInt8 → Nat → Prop) : Prop where
  found : ∀ xs i, find xs = some i → hit xs i ∧ ∀ j < i, ¬ hit xs j
  unfound : ∀ xs, find xs = none → ∀ j, ¬ hit xs j
  inside : ∀ xs j, hit xs j → j < xs.length
  start : ∀ xs ys j, j < xs.length → (hit (xs ++ ys) j ↔ hit xs j)

/-- Where the piece begins in which a place is searched: `filled` bytes are buffered,
    and the buffer has room for `room` bytes. -/
def pieceStart (room filled j : Nat) : Nat := if j < filled then 0 else if j < room then filled else j / room * room

theorem pieceStart_le (room filled j : Nat) : pieceStart room filled j ≤ j := by
  unfold pieceStart
  split
  · exact Nat.zero_le _
  · split
    · omega
    · exact Nat.div_mul_le_self j room

/-- A place where the search in its piece would end. -/
def Breaks (hit : List UInt8 → Nat → Prop) (room filled : Nat) (rest : List UInt8) (j : Nat) : Prop :=
  hit (rest.drop (pieceStart room filled j)) (j - pieceStart room filled j)

def First (P : Nat → Prop) (n : Nat) : Prop := P n ∧ ∀ j < n, ¬ P j

theorem First.unique {P : Nat → Prop} {n m : Nat} (first : First P n) (second : First P m) : n = m := by
  rcases Nat.lt_trichotomy n m with less | same | more
  · exact absurd first.1 (second.2 n less)
  · exact same
  · exact absurd second.1 (first.2 m more)

/-- How much is buffered behind a record of `n` bytes and its end. -/
def nextFilled (room filled n : Nat) : Nat := if n < filled then filled - (n + 1) else room - (n % room + 1)

section
variable {find : List UInt8 → Option Nat} {hit : List UInt8 → Nat → Prop}

theorem breaks_lt (searches : Searches find hit) {room filled : Nat} {rest : List UInt8} {j : Nat}
    (breaks : Breaks hit room filled rest j) : j < rest.length := by
  have inside := searches.inside _ _ breaks
  have := pieceStart_le room filled j
  rw [List.length_drop] at inside
  omega

/-- A piece is searched: from `begin` on there is no hit before its end, or a first one. -/
theorem piece_found (searches : Searches find hit) {rest : List UInt8} {begin len i : Nat}
    (found : find ((rest.drop begin).take len) = some i) :
    i < len ∧ begin + i < rest.length ∧ hit (rest.drop begin) i ∧ ∀ j < i, ¬ hit (rest.drop begin) j := by
  obtain ⟨isHit,first⟩ := searches.found _ _ found
  have inside := searches.inside _ _ isHit
  have transfer : ∀ j < ((rest.drop begin).take len).length,
      (hit (rest.drop begin) j ↔ hit ((rest.drop begin).take len) j) := by
    intro j below
    have start := searches.start ((rest.drop begin).take len) ((rest.drop begin).drop len) j below
    rwa [List.take_append_drop] at start
  have length : i < len ∧ begin + i < rest.length := by
    rw [List.length_take,List.length_drop] at inside
    omega
  exact ⟨length.1,length.2,(transfer i inside).mpr isHit,
    fun j below isHit => first j below ((transfer j (Nat.lt_trans below inside)).mp isHit)⟩

theorem piece_unfound (searches : Searches find hit) {rest : List UInt8} {begin len : Nat}
    (unfound : find ((rest.drop begin).take len) = none) : ∀ j < len, ¬ hit (rest.drop begin) j := by
  intro j below isHit
  have inside := searches.inside _ _ isHit
  have within : j < ((rest.drop begin).take len).length := by
    rw [List.length_take]
    omega
  have start := searches.start ((rest.drop begin).take len) ((rest.drop begin).drop len) j within
  rw [List.take_append_drop] at start
  exact searches.unfound _ unfound j (start.mp isHit)

/-- What is to be read, with how much of it is buffered: a buffer is full until the
    file ends. -/
structure Ahead (size room : Nat) (h : InBase) (filled : Nat) (rest : List UInt8) : Prop where
  holds : Holds size h rest
  isRoom : int32 size = room
  full : (restore h).buf.eof = false → (restore h).buf.buffer.length = room ∧ filled = room - (restore h).buf.pos
  ended : (restore h).buf.eof = true → rest.length ≤ filled
  within : filled ≤ room

/-- A buffer that is full until the file ends. -/
theorem ahead_of_ready {size room : Nat} {b : InBuffer} {file rest : List UInt8} (isRoom : int32 size = room)
    (ready : Ready size b file rest) (full : b.eof = false → b.buffer.length = room) {h : InBase}
    (buf : (restore h).buf = b) (left : (restore h).file = file) : Ahead size room h (room - b.pos) rest where
  holds := by
    unfold Holds
    rw [buf,left]
    exact ready
  isRoom := isRoom
  full unended := by
    rw [buf] at unended ⊢
    exact ⟨full unended,rfl⟩
  ended ended := by
    rw [buf] at ended
    have fits := ready.fits
    have nothing := ready.ended ended
    rw [← ready.holds,nothing,List.append_nil,List.length_drop]
    omega
  within := Nat.sub_le _ _

theorem restore_unpatched {h : InBase} (clean : h.zerop = none) : (restore h).buf = h.buf ∧ (restore h).file = h.file := by
  unfold restore
  rw [clean]
  exact ⟨rfl,rfl⟩

/-- What one read does, by the pieces: the record up to the first break, or the end. -/
def Reads (hit : List UInt8 → Nat → Prop) (size room filled : Nat) (rest : List UInt8)
    (answer : Option (Option Found × InBase)) : Prop :=
  (∃ n h', First (Breaks hit room filled rest) n ∧ n < rest.length ∧
      answer = some (some ⟨int32 n,rest.take n⟩,h') ∧ Ahead size room h' (nextFilled room filled n) (rest.drop (n + 1))) ∨
  ((∀ j, ¬ Breaks hit room filled rest j) ∧ ∃ h', answer = some (none,h') ∧ ∃ filled', Ahead size room h' filled' [])

theorem pieceStart_turn {room filled turn i : Nat} (within : filled ≤ room) (turns : 0 < turn) (inside : i < room) :
    pieceStart room filled (turn * room + i) = turn * room ∧ (turn * room + i) % room = i := by
  have least : room ≤ turn * room := Nat.le_mul_of_pos_left room turns
  have divided : (turn * room + i) / room = turn := by
    rw [Nat.mul_comm,Nat.mul_add_div (by omega),Nat.div_eq_of_lt inside,Nat.add_zero]
  constructor
  · rw [pieceStart,if_neg (by omega),if_neg (by omega),divided]
  · rw [Nat.mul_comm,Nat.mul_add_mod,Nat.mod_eq_of_lt inside]

/-- Places of one piece are hits exactly where the search of the piece finds them. -/
theorem first_turn {room filled turn i : Nat} (within : filled ≤ room) (turns : 0 < turn) (inside : i < room)
    {rest : List UInt8} (isHit : hit (rest.drop (turn * room)) i) (first : ∀ j < i, ¬ hit (rest.drop (turn * room)) j)
    (unbroken : ∀ j < turn * room, ¬ Breaks hit room filled rest j) :
    First (Breaks hit room filled rest) (turn * room + i) := by
  constructor
  · rw [Breaks,(pieceStart_turn within turns inside).1,Nat.add_sub_cancel_left]
    exact isHit
  · intro j below breaks
    by_cases earlier : j < turn * room
    · exact unbroken j earlier breaks
    · obtain ⟨k,rfl⟩ : ∃ k, j = turn * room + k := ⟨j - turn * room,by omega⟩
      rw [Breaks,(pieceStart_turn within turns (by omega)).1,Nat.add_sub_cancel_left] at breaks
      exact first k (by omega) breaks

theorem unbroken_turn {room filled turn : Nat} (within : filled ≤ room) (turns : 0 < turn) {rest : List UInt8}
    (none : ∀ j < room, ¬ hit (rest.drop (turn * room)) j)
    (unbroken : ∀ j < turn * room, ¬ Breaks hit room filled rest j) :
    ∀ j < (turn + 1) * room, ¬ Breaks hit room filled rest j := by
  intro j below breaks
  rw [Nat.add_mul,Nat.one_mul] at below
  by_cases earlier : j < turn * room
  · exact unbroken j earlier breaks
  · obtain ⟨k,rfl⟩ : ∃ k, j = turn * room + k := ⟨j - turn * room,by omega⟩
    rw [Breaks,(pieceStart_turn within turns (by omega)).1,Nat.add_sub_cancel_left] at breaks
    exact none k (by omega) breaks

/-- A refill of an empty buffer reads the next `room` bytes of the file. -/
theorem refill_takes {size room : Nat} (isRoom : int32 size = room) {b : InBuffer} {file rest : List UInt8}
    (ready : Ready size b file rest) (unended : b.eof = false) (start : b.pos = 0) :
    (fillBlocks b file).1.buffer = rest.take room ∧ (fillBlocks b file).2 = rest.drop room ∧
      ((fillBlocks b file).1.eof = false → (fillBlocks b file).1.buffer.length = room) := by
  obtain ⟨filled,pos,_,_,full⟩ := fill_ready ready unended start
  have whole := filled.holds
  have fits := filled.fits
  rw [pos,List.drop_zero] at whole
  generalize fillBlocks b file = f at *
  have isFull : f.1.eof = false → f.1.buffer.length = room := by
    intro more
    have := full more
    omega
  cases eof : f.1.eof with
  | true =>
    have nothing := filled.ended eof
    rw [nothing,List.append_nil] at whole
    rw [← whole,nothing,List.take_of_length_le (by omega),List.drop_of_length_le (by omega)]
    exact ⟨rfl,rfl,nofun⟩
  | false =>
    have length := isFull eof
    rw [← whole,List.take_left' length,List.drop_left' length]
    exact ⟨rfl,rfl,fun _ => length⟩

/-- The gathering loop, once `turn` whole buffers were searched. -/
theorem gatherWith_reads (searches : Searches find hit) {size room filled : Nat} (isRoom : int32 size = room)
    (positive : 0 < room) (within : filled ≤ room) {rest : List UInt8} {h : InBase} {bh : List UInt8} {turn : Nat}
    (turns : 0 < turn)
    (ready : Ready size h.buf h.file (h.buf.buffer ++ h.file)) (clean : h.zerop = none) (unended : h.buf.eof = false)
    (gathered : bh ++ h.buf.buffer = rest.take (turn * room)) (left : h.file = rest.drop (turn * room))
    (unbroken : ∀ j < turn * room, ¬ Breaks hit room filled rest j) :
    Reads hit size room filled rest (gatherWith find true h bh) := by
  induction unread : h.file.length using Nat.strongRecOn generalizing h bh turn with
  | ind unread ih =>
    obtain ⟨next,pos,_,_,_⟩ := fill_ready (emptied_ready ready) unended rfl
    obtain ⟨buffer,file,full⟩ := refill_takes isRoom (emptied_ready ready) unended rfl
    rw [gatherWith]
    generalize fillBlocks { h.buf with buffer := [], pos := 0 } h.file = f at *
    obtain ⟨b,later⟩ := f
    simp only at *
    have bytes : b.buffer = (rest.drop (turn * room)).take room := by rw [buffer,left]
    have lengths := congrArg List.length bytes
    rw [List.length_take,List.length_drop] at lengths
    cases here : find b.buffer with
    | some i =>
      rw [bytes] at here
      obtain ⟨inside,within',isHit,first⟩ := piece_found searches here
      obtain ⟨advanced,_⟩ := advance_ready next (i + 1) (by omega)
      have record : bh ++ h.buf.buffer ++ b.buffer.take i = rest.take (turn * room + i) := by
        rw [gathered,bytes,List.take_take,Nat.min_eq_left (by omega),List.take_add]
      have length : (rest.take (turn * room + i)).length = turn * room + i := by
        rw [List.length_take]
        omega
      have least : room ≤ turn * room := Nat.le_mul_of_pos_left room turns
      refine .inl ⟨turn * room + i,⟨{ b with pos := i + 1 },later,some (rest.take (turn * room + i)),h.zerop,h.zero⟩,
        first_turn within turns inside isHit first unbroken,within',?_,?_⟩
      · simp only [record,length]
        rw [if_neg (by omega)]
      · rw [nextFilled,if_neg (by omega),(pieceStart_turn within turns inside).2]
        rw [left,List.drop_drop,pos,Nat.zero_add] at advanced
        exact ahead_of_ready isRoom advanced full (restore_unpatched (by exact clean)).1
          (restore_unpatched (by exact clean)).2
    | none =>
      rw [bytes] at here
      have empty := piece_unfound searches here
      have still := unbroken_turn within turns empty unbroken
      simp only
      cases eof : b.eof with
      | true =>
        refine .inr ⟨fun j breaks => ?_,?_⟩
        · have short := breaks_lt searches breaks
          have nothing := congrArg List.length (next.ended eof)
          rw [file,left,List.drop_drop,List.length_drop,List.length_nil] at nothing
          exact still j (by rw [Nat.add_mul,Nat.one_mul]; omega) breaks
        · obtain ⟨ended,_⟩ := end_ready next eof
          rw [eof] at ended
          exact ⟨_,rfl,_,ahead_of_ready isRoom ended nofun (restore_unpatched (by exact clean)).1
            (restore_unpatched (by exact clean)).2⟩
      | false =>
        have length := full eof
        have fewer : later.length < h.file.length := by
          rw [file,left,List.length_drop,List.length_drop]
          omega
        simp only [fewer,if_true,Bool.false_eq_true,if_false]
        refine ih later.length (by rw [← unread]; exact fewer) (Nat.succ_pos turn) ?ready clean eof ?gathered ?left still rfl
        case ready =>
          have whole := next.holds
          rw [pos,List.drop_zero] at whole
          rw [whole]
          exact next
        case gathered => rw [gathered,bytes,Nat.succ_mul,List.take_add]
        case left => rw [Nat.succ_mul,← List.drop_drop,← left]; exact file

theorem pieceStart_buffered {room filled j : Nat} (inside : j < filled) : pieceStart room filled j = 0 := if_pos inside

theorem pieceStart_refilled {room filled i : Nat} (inside : filled + i < room) : pieceStart room filled (filled + i) = filled := by
  rw [pieceStart,if_neg (by omega),if_pos inside]

/-- A record that ends in the buffer. -/
theorem found_ahead {size room : Nat} (isRoom : int32 size = room) {h : InBase} {rest : List UInt8}
    (ready : Ready size h.buf h.file rest) (full : h.buf.eof = false → h.buf.buffer.length = room) {i : Nat} (filled : Nat)
    (inside : h.buf.pos + i < h.buf.buffer.length) (within : filled ≤ room)
    (more : h.buf.eof = false → filled = room - (h.buf.pos + (i + 1)))
    (ended : h.buf.eof = true → (rest.drop (i + 1)).length ≤ filled) :
    ∃ h', foundDelimiter h i = some (some ⟨int32 i,rest.take i⟩,h') ∧ Ahead size room h' filled (rest.drop (i + 1)) := by
  have fits := ready.fits
  have bound := int32_lt size
  have small : int32 i = i := int32_small (by omega)
  have pos : ((h.buf.pos : Int) + (int32 i + 1)).toNat = h.buf.pos + (i + 1) := by
    rw [small]
    omega
  obtain ⟨next,_⟩ := advance_ready ready (i + 1) inside
  obtain ⟨_,taken⟩ := advance_ready ready i (Nat.le_of_lt inside)
  simp only [foundDelimiter,pos,taken]
  rw [if_neg (by omega)]
  obtain ⟨buf,_⟩ := restore_terminate { h with buf := { h.buf with pos := h.buf.pos + (i + 1) } } (h.buf.pos + i)
  refine ⟨_,rfl,terminate_holds next _,isRoom,?_,?_,within⟩
  · rw [buf]
    exact fun unended => ⟨full unended,more unended⟩
  · rw [buf]
    exact ended

/-- The buffered piece has no break before its end. -/
theorem unbroken_buffered {room filled : Nat} {rest : List UInt8} (empty : ∀ j < filled, ¬ hit rest j) :
    ∀ j < filled, ¬ Breaks hit room filled rest j := by
  intro j below
  rw [Breaks,pieceStart_buffered below]
  exact empty j below

theorem first_buffered {room filled i : Nat} {rest : List UInt8} (inside : i < filled) (isHit : hit rest i)
    (first : ∀ j < i, ¬ hit rest j) : First (Breaks hit room filled rest) i := by
  constructor
  · rw [Breaks,pieceStart_buffered inside]
    exact isHit
  · intro j below
    rw [Breaks,pieceStart_buffered (Nat.lt_trans below inside)]
    exact first j below

/-- The piece that a refill adds has none either. -/
theorem unbroken_refilled {room filled : Nat} {rest : List UInt8} (buffered : ∀ j < filled, ¬ hit rest j)
    (within : filled ≤ room) (empty : ∀ j < room - filled, ¬ hit (rest.drop filled) j) :
    ∀ j < room, ¬ Breaks hit room filled rest j := by
  intro j below
  by_cases earlier : j < filled
  · exact unbroken_buffered buffered j earlier
  · obtain ⟨k,rfl⟩ : ∃ k, j = filled + k := ⟨j - filled,by omega⟩
    rw [Breaks,pieceStart_refilled (by omega),Nat.add_sub_cancel_left]
    exact empty k (by omega)

theorem first_refilled {room filled i : Nat} {rest : List UInt8} (buffered : ∀ j < filled, ¬ hit rest j)
    (inside : filled + i < room) (isHit : hit (rest.drop filled) i) (first : ∀ j < i, ¬ hit (rest.drop filled) j) :
    First (Breaks hit room filled rest) (filled + i) := by
  constructor
  · rw [Breaks,pieceStart_refilled inside,Nat.add_sub_cancel_left]
    exact isHit
  · intro j below
    by_cases earlier : j < filled
    · exact unbroken_buffered buffered j earlier
    · obtain ⟨k,rfl⟩ : ∃ k, j = filled + k := ⟨j - filled,by omega⟩
      rw [Breaks,pieceStart_refilled (by omega),Nat.add_sub_cancel_left]
      exact first k (by omega)

/-- The loop that gathers, entered when the first whole buffer was searched. -/
theorem gatherWith_starts (searches : Searches find hit) {size room filled : Nat} (isRoom : int32 size = room)
    (positive : 0 < room) (within : filled ≤ room) {rest : List UInt8} {h : InBase}
    (ready : Ready size h.buf h.file rest) (start : h.buf.pos = 0) (clean : h.zerop = none) (unended : h.buf.eof = false)
    (length : h.buf.buffer.length = room) (unbroken : ∀ j < room, ¬ Breaks hit room filled rest j) :
    Reads hit size room filled rest (gatherWith find true h []) := by
  have whole := ready.holds
  rw [start,List.drop_zero] at whole
  refine gatherWith_reads searches isRoom positive within Nat.one_pos ?ready clean unended ?gathered ?left ?unbroken
  case ready =>
    rw [whole]
    exact ready
  case gathered => rw [Nat.one_mul,List.nil_append,← whole,List.take_left' length]
  case left => rw [Nat.one_mul,← whole,List.drop_left' length]
  case unbroken => simpa only [Nat.one_mul] using unbroken

theorem readWith_reads (searches : Searches find hit) {size room filled : Nat} (positive : 0 < room) {h : InBase}
    {rest : List UInt8} (ahead : Ahead size room h filled rest) :
    Reads hit size room filled rest (readWith find h true) := by
  have isRoom := ahead.isRoom
  have within := ahead.within
  have ready := cleanup_ready ahead.holds
  have clean := cleanup_clean h
  have full : (cleanupLastRead h).buf.eof = false → (cleanupLastRead h).buf.buffer.length = room ∧
      filled = room - (cleanupLastRead h).buf.pos := ahead.full
  have ended : (cleanupLastRead h).buf.eof = true → rest.length ≤ filled := ahead.ended
  have whole := ready.holds
  have fits := ready.fits
  simp only [readWith,endOfBlock_required]
  generalize cleanupLastRead h = h at *
  have length : (h.buf.buffer.drop h.buf.pos).length = h.buf.buffer.length - h.buf.pos := List.length_drop
  -- the bytes in the buffer are the first bytes to be read
  have buffered : ((rest.drop 0).take (h.buf.buffer.length - h.buf.pos)) = h.buf.buffer.drop h.buf.pos := by
    rw [List.drop_zero,← whole,List.take_left' length]
  have inside := ready.inside
  cases here : find (h.buf.buffer.drop h.buf.pos) with
  | some i =>
    rw [← buffered] at here
    obtain ⟨before,short,isHit,first⟩ := piece_found searches here
    rw [Nat.zero_add] at short
    rw [List.drop_zero] at isHit first
    have below : i < filled := by
      cases eof : h.buf.eof with
      | true =>
        have := ended eof
        omega
      | false =>
        have := full eof
        omega
    obtain ⟨h',answer,next⟩ := found_ahead isRoom ready (fun unended => (full unended).1) (i := i)
      (nextFilled room filled i) (by omega)
      (by rw [nextFilled,if_pos below]; omega)
      (fun unended => by rw [nextFilled,if_pos below]; have := full unended; omega)
      (fun eof => by rw [nextFilled,if_pos below,List.length_drop]; have := ended eof; omega)
    exact .inl ⟨i,h',first_buffered below isHit first,short,answer,next⟩
  | none =>
    rw [← buffered] at here
    have empty := piece_unfound searches here
    simp only [List.drop_zero] at empty
    cases eof : h.buf.eof with
    | true =>
      have nothing := ready.ended eof
      rw [nothing,List.append_nil] at whole
      obtain ⟨next,_⟩ := end_ready ready eof
      rw [eof] at next
      refine .inr ⟨fun j breaks => ?_,_,rfl,_,ahead_of_ready isRoom next nofun (restore_unpatched (by exact clean)).1
        (restore_unpatched (by exact clean)).2⟩
      have short := breaks_lt searches breaks
      have below := ended eof
      rw [Breaks,pieceStart_buffered (by omega)] at breaks
      exact empty j (by rw [← whole,length] at short; exact short) breaks
    | false =>
      obtain ⟨length,isFilled⟩ := full eof
      have buffered : ∀ j < filled, ¬ hit rest j := fun j below => empty j (by omega)
      simp only [Bool.false_eq_true,if_false]
      by_cases start : h.buf.pos > 0
      · rw [if_pos start]
        obtain ⟨refilled,pos,_,_,_⟩ := fill_ready (reset_ready ready) eof rfl
        obtain ⟨buffer,file,isFull⟩ := refill_takes isRoom (reset_ready ready) eof rfl
        generalize fillBlocks (resetBlock h.buf) h.file = f at *
        obtain ⟨b,later⟩ := f
        simp only at *
        have searched : (h.buf.buffer.drop h.buf.pos).length = filled := by omega
        have piece : b.buffer.drop filled = (rest.drop filled).take (room - filled) := by rw [buffer,List.drop_take]
        have bytes := congrArg List.length buffer
        rw [List.length_take] at bytes
        rw [searched,piece]
        cases there : find ((rest.drop filled).take (room - filled)) with
        | some i =>
          obtain ⟨before,short,isHit,first⟩ := piece_found searches there
          have small : (filled + i) % room = filled + i := Nat.mod_eq_of_lt (by omega)
          obtain ⟨h',answer,next⟩ := found_ahead isRoom (h := ⟨b,later,h.bh,h.zerop,h.zero⟩) refilled isFull (i := filled + i)
            (nextFilled room filled (filled + i)) (by simp only; omega)
            (by rw [nextFilled,if_neg (by omega)]; omega)
            (fun unended => by rw [nextFilled,if_neg (by omega),small,pos,Nat.zero_add])
            (fun ended => by
              have nothing := congrArg List.length (refilled.ended ended)
              rw [file,List.length_drop,List.length_nil] at nothing
              rw [nextFilled,if_neg (by omega),small,List.length_drop]
              omega)
          exact .inl ⟨filled + i,h',first_refilled buffered (by omega) isHit first,short,answer,next⟩
        | none =>
          have still := unbroken_refilled buffered within (piece_unfound searches there)
          cases ended : b.eof with
          | true =>
            have nothing := congrArg List.length (refilled.ended ended)
            rw [file,List.length_drop,List.length_nil] at nothing
            obtain ⟨next,_⟩ := end_ready refilled ended
            rw [ended] at next
            refine .inr ⟨fun j breaks => ?_,_,rfl,_,ahead_of_ready isRoom next nofun (restore_unpatched (by exact clean)).1
              (restore_unpatched (by exact clean)).2⟩
            have short := breaks_lt searches breaks
            exact still j (by omega) breaks
          | false =>
            simp only [Bool.false_eq_true,if_false]
            exact gatherWith_starts searches isRoom positive within (h := ⟨b,later,h.bh,h.zerop,h.zero⟩) refilled pos clean
              ended (isFull ended) still
      · have start : h.buf.pos = 0 := by omega
        simp only [start,gt_iff_lt,Nat.lt_irrefl,if_false]
        refine gatherWith_starts searches isRoom positive within ready start clean eof length ?_
        exact unbroken_refilled buffered within fun j below => by omega

theorem init_ahead {bufferSize room : Nat} (isRoom : int32 (allocated bufferSize) = room) (file : List UInt8) :
    Ahead (allocated bufferSize) room (acInBaseInit file bufferSize) room file := by
  have empty : Ready (allocated bufferSize) ⟨[],allocated bufferSize,0,false⟩ file file :=
    ⟨Nat.le_refl _,by simp [isRoom],rfl,nofun,fun _ => rfl⟩
  obtain ⟨ready,pos,_,_,_⟩ := fill_ready empty rfl rfl
  obtain ⟨_,_,full⟩ := refill_takes isRoom empty rfl rfl
  have ahead := ahead_of_ready (h := acInBaseInit file bufferSize) isRoom ready full rfl rfl
  rwa [pos,Nat.sub_zero] at ahead

variable (find) in
/-- A buffer that nothing is read into. -/
theorem stuck_readWith (nothing : find [] = none) {size : Nat} (room : int32 size ≤ 0) {h : InBase} (stuck : Stuck size h)
    (required : Bool) : readWith find h required = none := by
  have buf : (cleanupLastRead h).buf = ⟨[],size,0,false⟩ := stuck
  simp only [readWith,buf,List.drop_nil,nothing,Bool.false_eq_true,if_false,gt_iff_lt,Nat.lt_irrefl]
  rw [gatherWith]
  simp only [buf,stuck_fill room,nothing,Bool.false_eq_true,if_false,Nat.lt_irrefl]

end
end AnotherC.InSearch
