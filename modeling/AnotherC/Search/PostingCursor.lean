import AnotherC.Lib.Scan
import AnotherC.Search.Groups
import Mathlib.Data.List.Forall2

/-!
# The cursor of a posting: `_init_term_cursor`

The cursor reads the groups of a term in order and the records of a group in order. A
seek skips whole groups by their numbers, then records of one group by their ids.
`posting_cursor_exact` says what the calls return, and what `[wp,ewp)` is after each.
-/
namespace AnotherC.PostingCursor
open AnotherC.Lib.Bytes AnotherC.Lib.Cursor AnotherC.Lib.Scan AnotherC.Groups
set_option linter.unusedVariables false

/-! ## Positions of a record -/

/-- The bytes that `advance_pos_id` reads after the first two: where `*sp` is among them,
    and where the record ends. -/
def advancePosBody (v : Nat) (p : List UInt8) : Option (Nat × Nat) :=
  let skip := if v &&& 8 ≠ 0 then p.head?.map fun n => n.toNat + 1 else some 0
  match skip with
  | none => none
  | some skip =>
    if v &&& 7 < 7 then some (skip,skip + (v &&& 7))
    else
      match p.drop skip with
      | [] => none
      | n :: p =>
        if n.toNat > 1 then some (skip + 1,skip + (n.toNat + 1))
        else if n.toNat = 0 then
          match p with
          | b0 :: b1 :: _ => some (skip + (1 + 2),skip + (1 + (number [b0,b1] + 2)))
          | _ => none
        else
          match p with
          | b0 :: b1 :: b2 :: b3 :: _ => some (skip + (1 + 4),skip + (1 + (number [b0,b1,b2,b3] + 4)))
          | _ => none

/-- `advance_pos_id` at the bytes from `p` on: where `*sp` is, how far `p` moves, and the
    id. -/
def advancePosId : List UInt8 → Option (Nat × Nat × Nat)
  | b0 :: b1 :: p =>
    let v := number [b0,b1]
    (advancePosBody v p).map fun (sp,n) => (2 + sp,2 + n,v >>> 4)
  | _ => none

def peekId : List UInt8 → Option Nat
  | b0 :: b1 :: _ => some (number [b0,b1] >>> 4)
  | _ => none

/-- The bytes of a payload before its positions: one that counts the others. -/
def extraBytes : Option (List UInt8) → List UInt8
  | none => []
  | some extra => UInt8.ofNat extra.length :: extra

def extraFlag : Option (List UInt8) → Nat
  | none => 0
  | some _ => 8

/-- How a payload holds its positions: few of them are counted in the control bits, more
    of them by a number of one, two or four bytes. -/
inductive HasPositions (positions : List UInt8) : List UInt8 → Prop
  | few (extra : Option (List UInt8)) (counted : ∀ e, extra = some e → e.length < 256) (length : positions.length < 7) :
    HasPositions positions (UInt8.ofNat (extraFlag extra + positions.length) :: (extraBytes extra ++ positions))
  | oneByte (extra : Option (List UInt8)) (counted : ∀ e, extra = some e → e.length < 256)
      (length : 1 < positions.length ∧ positions.length < 2 ^ 8) :
    HasPositions positions (UInt8.ofNat (extraFlag extra + 7) ::
      (extraBytes extra ++ (UInt8.ofNat positions.length :: positions)))
  | twoBytes (extra : Option (List UInt8)) (counted : ∀ e, extra = some e → e.length < 256)
      (length : positions.length < 2 ^ 16) :
    HasPositions positions (UInt8.ofNat (extraFlag extra + 7) ::
      (extraBytes extra ++ (0 :: (bytes 2 positions.length ++ positions))))
  | fourBytes (extra : Option (List UInt8)) (counted : ∀ e, extra = some e → e.length < 256)
      (length : positions.length < 2 ^ 32) :
    HasPositions positions (UInt8.ofNat (extraFlag extra + 7) ::
      (extraBytes extra ++ (1 :: (bytes 4 positions.length ++ positions))))

section
variable {v : Nat} {p q data positions : List UInt8} {id sp n : Nat}

theorem extra_skip {extra : Option (List UInt8)} (counted : ∀ e, extra = some e → e.length < 256) {low : Nat} (small : low ≤ 7) :
    ((extraFlag extra + low) &&& 7 = low) ∧
      (if (extraFlag extra + low) &&& 8 ≠ 0 then (extraBytes extra ++ p).head?.map fun n => n.toNat + 1 else some 0) =
        some (extraBytes extra).length := by
  cases extra with
  | none =>
    have bits : ∀ low ≤ 7, (0 + low) &&& 7 = low ∧ (0 + low) &&& 8 = 0 := by decide
    exact ⟨(bits low small).1,if_neg (by rw [extraFlag,(bits low small).2]; simp)⟩
  | some e =>
    have bits : ∀ low ≤ 7, (8 + low) &&& 7 = low ∧ (8 + low) &&& 8 = 8 := by decide
    refine ⟨(bits low small).1,?_⟩
    rw [if_pos (by rw [extraFlag,(bits low small).2]; decide),extraBytes,List.cons_append,List.head?_cons,Option.map_some,
      UInt8.toNat_ofNat_of_lt' (counted e rfl),List.length_cons]

theorem number_two {n : Nat} (small : n < 2 ^ 16) : number [UInt8.ofNat n,UInt8.ofNat (n / 256)] = n := by
  have whole := number_bytes 2 n
  rw [Nat.mod_eq_of_lt (by omega)] at whole
  exact whole

theorem number_four {n : Nat} (small : n < 2 ^ 32) :
    number [UInt8.ofNat n,UInt8.ofNat (n / 256),UInt8.ofNat (n / 256 / 256),UInt8.ofNat (n / 256 / 256 / 256)] = n := by
  have whole := number_bytes 4 n
  rw [Nat.mod_eq_of_lt (by omega)] at whole
  exact whole

/-- What `advance_pos_id` finds of the positions. -/
theorem HasPositions.read (has : HasPositions positions data) :
    ∃ control rest sp, data = control :: rest ∧ control.toNat < 16 ∧ sp ≤ rest.length ∧ rest.drop sp = positions ∧
      ∀ q, advancePosBody control.toNat (rest ++ q) = some (sp,rest.length) := by
  have control_of : ∀ (extra : Option (List UInt8)) (low : Nat), low ≤ 7 →
      (UInt8.ofNat (extraFlag extra + low)).toNat = extraFlag extra + low ∧ extraFlag extra + low < 16 := by
    intro extra low small
    have flag : extraFlag extra ≤ 8 := by cases extra <;> simp [extraFlag]
    have size : UInt8.size = 256 := rfl
    exact ⟨UInt8.toNat_ofNat_of_lt' (by omega),by omega⟩
  cases has with
  | few extra counted length =>
    obtain ⟨value,nibble⟩ := control_of extra positions.length (by omega)
    refine ⟨_,_,(extraBytes extra).length,rfl,by rw [value]; exact nibble,by simp,List.drop_left,fun q => ?_⟩
    obtain ⟨low,skip⟩ := extra_skip (p := positions ++ q) counted (by omega : positions.length ≤ 7)
    rw [value,advancePosBody,List.append_assoc,skip]
    simp only [low,if_pos length,List.length_append]
  | oneByte extra counted length =>
    obtain ⟨value,nibble⟩ := control_of extra 7 (Nat.le_refl 7)
    refine ⟨_,_,(extraBytes extra).length + 1,rfl,by rw [value]; exact nibble,by simp,?_,fun q => ?_⟩
    · rw [List.drop_length_add_append]
      rfl
    obtain ⟨low,skip⟩ := extra_skip (p := UInt8.ofNat positions.length :: positions ++ q) counted (Nat.le_refl 7)
    have count : (UInt8.ofNat positions.length).toNat = positions.length := UInt8.toNat_ofNat_of_lt' length.2
    rw [value,advancePosBody,List.append_assoc,skip]
    simp only [low,if_neg (Nat.lt_irrefl 7),List.drop_left,List.cons_append,count,if_pos length.1]
    simp
  | twoBytes extra counted length =>
    obtain ⟨value,nibble⟩ := control_of extra 7 (Nat.le_refl 7)
    refine ⟨_,_,(extraBytes extra).length + 3,rfl,by rw [value]; exact nibble,by simp,?_,fun q => ?_⟩
    · rw [List.drop_length_add_append]
      rfl
    obtain ⟨low,skip⟩ := extra_skip (p := 0 :: (bytes 2 positions.length ++ positions) ++ q) counted (Nat.le_refl 7)
    rw [value,advancePosBody,List.append_assoc,skip]
    simp only [low,if_neg (Nat.lt_irrefl 7),List.drop_left,List.cons_append,bytes,List.nil_append,number_two length]
    simp
    omega
  | fourBytes extra counted length =>
    obtain ⟨value,nibble⟩ := control_of extra 7 (Nat.le_refl 7)
    refine ⟨_,_,(extraBytes extra).length + 5,rfl,by rw [value]; exact nibble,by simp,?_,fun q => ?_⟩
    · rw [List.drop_length_add_append]
      rfl
    obtain ⟨low,skip⟩ := extra_skip (p := 1 :: (bytes 4 positions.length ++ positions) ++ q) counted (Nat.le_refl 7)
    rw [value,advancePosBody,List.append_assoc,skip]
    simp only [low,if_neg (Nat.lt_irrefl 7),List.drop_left,List.cons_append,bytes,List.nil_append,number_four length]
    simp
    omega

theorem extra_of {control : UInt8} {rest : List UInt8} {skip : Nat} (nibble : control.toNat < 16)
    (skips : (if control.toNat &&& 8 ≠ 0 then rest.head?.map fun n => n.toNat + 1 else some 0) = some skip)
    (inside : skip ≤ rest.length) :
    ∃ extra, (∀ e, extra = some e → e.length < 256) ∧ control = UInt8.ofNat (extraFlag extra + (control.toNat &&& 7)) ∧
      rest = extraBytes extra ++ rest.drop skip := by
  have bits : ∀ c < 16, c &&& 8 = 0 ∧ c = 0 + (c &&& 7) ∨ c &&& 8 ≠ 0 ∧ c = 8 + (c &&& 7) := by decide
  rcases bits control.toNat nibble with ⟨flag,whole⟩ | ⟨flag,whole⟩
  · rw [if_neg (by simpa using flag)] at skips
    cases skips
    refine ⟨none,by simp,?_,rfl⟩
    rw [extraFlag,← whole,UInt8.ofNat_toNat]
  · rw [if_pos flag] at skips
    cases rest with
    | nil => cases skips
    | cons n rest =>
      cases skips
      have inside' : n.toNat + 1 ≤ rest.length + 1 := inside
      have count : (rest.take n.toNat).length = n.toNat := by
        rw [List.length_take]
        omega
      have small := n.toNat_lt
      refine ⟨some (rest.take n.toNat),?_,?_,?_⟩
      · intro e same
        cases same
        omega
      · rw [extraFlag,← whole,UInt8.ofNat_toNat]
      · rw [extraBytes,count,UInt8.ofNat_toNat,List.drop_succ_cons,List.cons_append,List.take_append_drop]

/-- Every payload holds positions. -/
theorem hasPositions_of (payload : Payload data) : ∃ positions, HasPositions positions data := by
  obtain ⟨control,rest,rfl,nibble,read⟩ := payload.control
  rw [advanceBody] at read
  cases skips : (if control.toNat &&& 8 ≠ 0 then rest.head?.map fun n => n.toNat + 1 else some 0) with
  | none =>
    rw [skips] at read
    cases read
  | some skip =>
    rw [skips] at read
    simp only at read
    have inside : skip ≤ rest.length := by
      by_contra beyond
      by_cases few : control.toNat &&& 7 < 7
      · rw [if_pos few] at read
        have := Option.some.inj read
        omega
      · rw [if_neg few,List.drop_eq_nil_of_le (by omega)] at read
        cases read
    obtain ⟨extra,counted,control_eq,rest_eq⟩ := extra_of nibble skips inside
    have total : rest.length = skip + (rest.drop skip).length := by
      rw [List.length_drop]
      omega
    by_cases few : control.toNat &&& 7 < 7
    · rw [if_pos few] at read
      have length : (rest.drop skip).length = control.toNat &&& 7 := by
        have := Option.some.inj read
        omega
      refine ⟨rest.drop skip,?_⟩
      have has : HasPositions (rest.drop skip) _ := .few extra counted (by omega)
      rw [length,← control_eq,← rest_eq] at has
      exact has
    · have seven : control.toNat &&& 7 = 7 := by
        have most : control.toNat &&& 7 ≤ 7 := Nat.and_le_right
        omega
      rw [if_neg few] at read
      rw [seven] at control_eq
      cases after : rest.drop skip with
      | nil =>
        rw [after] at read
        cases read
      | cons n tail =>
        rw [after] at read rest_eq total
        simp only at read
        rw [List.length_cons] at total
        by_cases large : n.toNat > 1
        · rw [if_pos large] at read
          have length : tail.length = n.toNat := by
            have := Option.some.inj read
            omega
          have small := n.toNat_lt
          refine ⟨tail,?_⟩
          have has : HasPositions tail _ := .oneByte extra counted ⟨by omega,by omega⟩
          rw [length,UInt8.ofNat_toNat] at has
          rw [control_eq,rest_eq]
          exact has
        · rw [if_neg large] at read
          by_cases zero : n.toNat = 0
          · rw [if_pos zero] at read
            have n_eq : n = 0 := UInt8.toNat_inj.mp zero
            rcases tail with _ | ⟨b0,_ | ⟨b1,tail⟩⟩
            · cases read
            · cases read
            have length : tail.length = number [b0,b1] := by
              have := Option.some.inj read
              rw [List.length_cons,List.length_cons] at total
              omega
            have small : number [b0,b1] < 256 ^ 2 := number_lt _
            refine ⟨tail,?_⟩
            have has : HasPositions tail _ := .twoBytes extra counted (by omega)
            have back : bytes 2 (number [b0,b1]) = [b0,b1] := bytes_number [b0,b1]
            rw [length,back] at has
            rw [control_eq,rest_eq,n_eq]
            exact has
          · rw [if_neg zero] at read
            have n_eq : n = 1 := UInt8.toNat_inj.mp (by simp; omega)
            rcases tail with _ | ⟨b0,_ | ⟨b1,_ | ⟨b2,_ | ⟨b3,tail⟩⟩⟩⟩
            · cases read
            · cases read
            · cases read
            · cases read
            have length : tail.length = number [b0,b1,b2,b3] := by
              have := Option.some.inj read
              rw [List.length_cons,List.length_cons,List.length_cons,List.length_cons] at total
              omega
            have small : number [b0,b1,b2,b3] < 256 ^ 4 := number_lt _
            refine ⟨tail,?_⟩
            have has : HasPositions tail _ := .fourBytes extra counted (by omega)
            have back : bytes 4 (number [b0,b1,b2,b3]) = [b0,b1,b2,b3] := bytes_number [b0,b1,b2,b3]
            rw [length,back] at has
            rw [control_eq,rest_eq,n_eq]
            exact has

end

/-! ## The cursor -/

/-- What `advance` and `_advance` point to. -/
inductive AdvanceCb
  | empty
  | block
  | postReset
deriving DecidableEq

inductive AdvanceToCb
  | emptyTo
  | blockTo
deriving DecidableEq

/-- `block_cursor_t`: `p` is the memory from `p` on, `left` how far `ep` is from there,
    and `cur` the groups from `cur` up to `eg`. The bytes of `[wp,ewp)` are `wp`. -/
structure BlockCursor where
  current : Nat
  advance : AdvanceCb
  advanceTo : AdvanceToCb
  _advance : AdvanceCb
  wp : List UInt8
  gid : Nat
  p : List UInt8
  left : Nat
  cur : List Slot
deriving DecidableEq

/-- `advance_group` at the group `g`, after which come the groups `cur`. -/
def advanceGroup (sc : BlockCursor) (g : Slot) (cur : List Slot) : Option BlockCursor :=
  let gid := g.group <<< 12
  if g.type ≠ 0 then
    match g.cell with
    | .inline _ => none
    | .block mem base => (readNumber mem base).map fun len =>
        { sc with gid := gid, p := mem.drop (base + 4), left := len, cur := cur }
  else
    match g.cell with
    | .inline slot => (advanceId slot).map fun (n,_) => { sc with gid := gid, p := slot, left := n, cur := cur }
    | .block _ _ => none

def acSEmptyCursor (c : BlockCursor) : Nat × BlockCursor :=
  (0,{ c with advanceTo := .emptyTo, advance := .empty, current := 0 })

/-- The end of `advance_block_cursor` and of `advance_block_cursor_to`. -/
def readRecord (sc : BlockCursor) : Option (Nat × BlockCursor) :=
  (advancePosId sc.p).map fun (sp,n,res) =>
    (res + sc.gid,{ sc with p := sc.p.drop n, left := sc.left - n, wp := (sc.p.drop sp).take (n - sp), current := res + sc.gid })

/-- The next group, or the empty cursor after the last. -/
def groupOrEmpty (sc : BlockCursor) : Option (Nat × BlockCursor) :=
  match sc.cur with
  | [] => some (acSEmptyCursor sc)
  | g :: cur => (advanceGroup sc g cur).bind readRecord

def advanceBlockCursor (sc : BlockCursor) : Option (Nat × BlockCursor) :=
  if sc.left = 0 then groupOrEmpty sc else readRecord sc

/-- `while(sc->gid < gid)`, where `cur` are the groups still to come; false if they do not
    suffice. -/
def skipGroups (gid : Nat) (sc : BlockCursor) : List Slot → Option (Bool × BlockCursor)
  | [] => some (decide (gid ≤ sc.gid),sc)
  | g :: cur =>
    if sc.gid < gid then (advanceGroup sc g cur).bind fun sc => skipGroups gid sc cur else some (true,sc)

/-- `while(cid < id)`, from where `p` is not at the end of the group. -/
def scanGroup : Nat → BlockCursor → Nat → Option BlockCursor
  | 0, _, _ => none
  | fuel + 1, sc, id =>
    match peekId sc.p with
    | none => none
    | some cid =>
      if cid < id then
        match advanceId sc.p with
        | none => none
        | some (n,_) =>
          let sc := { sc with p := sc.p.drop n, left := sc.left - n }
          if sc.left = 0 then some sc else scanGroup fuel sc id
      else some sc

def advanceBlockCursorTo (c : BlockCursor) (id : Nat) : Option (Nat × BlockCursor) :=
  if id ≤ c.current then some (c.current,c)
  else
    let gid := id &&& 0x7fff000
    match skipGroups gid c c.cur with
    | none => none
    | some (false,sc) => some (acSEmptyCursor sc)
    | some (true,sc) =>
      if sc.left = 0 then groupOrEmpty sc
      else if sc.gid = gid then
        (scanGroup (sc.left + 1) sc (id &&& 0xfff)).bind fun sc => if sc.left = 0 then groupOrEmpty sc else readRecord sc
      else readRecord sc

def postResetAdvance (c : BlockCursor) : Nat × BlockCursor := (c.current,{ c with advance := c._advance })

def acSReset (c : BlockCursor) : BlockCursor := { c with _advance := c.advance, advance := .postReset }

/-- A call of the function that the cursor points to. -/
def advance (c : BlockCursor) : Option (Nat × BlockCursor) :=
  match c.advance with
  | .empty => some (0,c)
  | .block => advanceBlockCursor c
  | .postReset => some (postResetAdvance c)

def advanceTo (c : BlockCursor) (id : Nat) : Option (Nat × BlockCursor) :=
  match c.advanceTo with
  | .emptyTo => some (0,c)
  | .blockTo => advanceBlockCursorTo c id

def initTermCursor (groups : List Slot) : Option BlockCursor :=
  (advance ⟨0,.block,.blockTo,.block,[],0,[],0,groups⟩).map fun (_,r) => acSReset r

def call (c : BlockCursor) : Call → Option (Nat × BlockCursor)
  | .advance => advance c
  | .advanceTo id => advanceTo c id

/-- What each call returns, with the bytes of `[wp,ewp)` after it. -/
def run : BlockCursor → List Call → Option (List (Nat × List UInt8))
  | _, [] => some []
  | c, order :: calls => (call c order).bind fun (id,c) => (run c calls).map fun later => (id,c.wp) :: later

/-! ## Groups of records -/

/-- A group with its records. -/
abbrev Group := Slot × List Record

/-- The records of a group under their whole ids. -/
def posting (gid : Nat) (rs : List Record) : List (Nat × List UInt8) := rs.map fun r => (r.1 + gid,r.2)

def postings (gs : List Group) : List (Nat × List UInt8) := gs.flatMap fun g => posting (g.1.group <<< 12) g.2

/-- A well-formed array of groups: their numbers have 15 bits and ascend. -/
structure GroupArray (gs : List Group) : Prop where
  holds : ∀ g ∈ gs, Holds g.1 g.2
  numbers : ∀ g ∈ gs, g.1.group < 2 ^ 15
  ascending : gs.Pairwise fun g h => g.1.group < h.1.group

/-- The cursor has `rs` left in its group, and the groups `gs` after it. -/
structure Reads (c : BlockCursor) (rs : List Record) (gs : List Group) : Prop where
  advance : c.advance = .block
  advanceTo : c.advanceTo = .blockTo
  sound : Sound rs
  p : ∃ slack, c.p = encodeAll rs ++ slack
  left : c.left = (encodeAll rs).length
  cur : c.cur = gs.map Prod.fst
  array : GroupArray gs
  group : ∃ group, c.gid = group <<< 12 ∧ ∀ g ∈ gs, group < g.1.group

def ahead (c : BlockCursor) (rs : List Record) (gs : List Group) : List (Nat × List UInt8) := posting c.gid rs ++ postings gs

section
variable {c : BlockCursor} {r : Record} {rs : List Record} {g : Group} {gs : List Group} {positions data q : List UInt8}

theorem Reads.left_iff (reads : Reads c rs gs) : c.left = 0 ↔ rs = [] := by
  rw [reads.left]
  cases rs with
  | nil => simp [encodeAll]
  | cons r rs =>
    have two := encode_two (reads.sound.payloads r (by simp))
    rw [encodeAll_cons,List.length_append]
    exact ⟨fun zero => by omega,fun no => by cases no⟩

theorem GroupArray.tail (array : GroupArray (g :: gs)) : GroupArray gs :=
  ⟨fun h member => array.holds h (by simp [member]),fun h member => array.numbers h (by simp [member]),
    (List.pairwise_cons.mp array.ascending).2⟩

/-- The cursor at a group. -/
theorem advanceGroup_spec (array : GroupArray (g :: gs)) (block : c.advance = .block) (blockTo : c.advanceTo = .blockTo) :
    ∃ c', advanceGroup c g.1 (gs.map Prod.fst) = some c' ∧ Reads c' g.2 gs ∧ c'.gid = g.1.group <<< 12 ∧ g.2 ≠ [] := by
  have holds := array.holds g (by simp)
  have above : ∀ h ∈ gs, g.1.group < h.1.group := (List.pairwise_cons.mp array.ascending).1
  rcases holds.stored with ⟨inline,r,slack,only,cell,_⟩ | ⟨block_,mem,cell,held⟩
  · have payload := holds.sound.payloads r (by rw [only]; simp)
    have read := advanceId_encode payload (holds.sound.ids r (by rw [only]; simp)) slack
    have one : encodeAll g.2 = encode r := by
      rw [only]
      exact List.append_nil _
    refine ⟨_,by rw [advanceGroup,if_neg (by simpa using inline),cell]; simp only [read]; rfl,?_,rfl,holds.some_⟩
    exact ⟨block,blockTo,holds.sound,⟨slack,by rw [one]⟩,by rw [one],rfl,array.tail,_,rfl,above⟩
  · obtain ⟨slack,shape⟩ := held.content
    have largest : maxSize < 2 ^ 32 := by decide
    have fits := held.fits
    have header : readNumber mem 0 = some (encodeAll g.2).length := by
      rw [shape,List.append_assoc]
      exact readNumber_bytes (by omega) _
    refine ⟨_,by rw [advanceGroup,if_pos (by rw [block_]; decide),cell]; simp only [header]; rfl,?_,rfl,holds.some_⟩
    refine ⟨block,blockTo,holds.sound,⟨slack,?_⟩,rfl,rfl,array.tail,_,rfl,above⟩
    have four : 0 + 4 = (bytes 4 (encodeAll g.2).length).length := by rw [bytes_length]
    rw [shape,List.append_assoc,four,List.drop_left]

/-- What `advance_pos_id` reads at a record. -/
theorem advancePosId_encode (payload : Payload r.2) (small : r.1 < 4096) (q : List UInt8) :
    ∃ sp, advancePosId (encode r ++ q) = some (sp,(encode r).length,r.1) ∧
      HasPositions (((encode r ++ q).drop sp).take ((encode r).length - sp)) r.2 := by
  obtain ⟨positions,has⟩ := hasPositions_of payload
  obtain ⟨control,rest,sp,shape,nibble,inside,found,read⟩ := has.read
  obtain ⟨stored,high⟩ := head_bits small nibble
  obtain ⟨v,v_eq⟩ : ∃ v, v = r.1 <<< 4 ||| control.toNat := ⟨_,rfl⟩
  have body : advancePosBody v (rest ++ q) = some (sp,rest.length) := by
    obtain ⟨three,flag⟩ := control_bits nibble r.1
    rw [← read q,v_eq,advancePosBody,advancePosBody,three,flag]
  rw [← v_eq] at stored high
  have stored' : number [UInt8.ofNat v,UInt8.ofNat (v / 256)] = v := stored
  have front : encode r = UInt8.ofNat v :: UInt8.ofNat (v / 256) :: rest := by
    rw [encode,shape,copyData,← v_eq]
    rfl
  have length : (encode r).length = 2 + rest.length := by
    rw [front,List.length_cons,List.length_cons]
    omega
  have bytes_ : ((encode r ++ q).drop (2 + sp)).take ((encode r).length - (2 + sp)) = positions := by
    have two : (encode r ++ q).drop (2 + sp) = (rest ++ q).drop sp := by
      rw [front,Nat.add_comm 2 sp]
      rfl
    have count : (encode r).length - (2 + sp) = (rest.drop sp).length := by
      rw [length,List.length_drop]
      omega
    rw [two,count,List.drop_append_of_le_length inside,List.take_left,found]
  refine ⟨2 + sp,?_,by rw [bytes_]; exact has⟩
  rw [length,front,List.cons_append,List.cons_append,advancePosId]
  simp only [stored',body,high,Option.map_some]

theorem Sound.tail (sound : Sound (r :: rs)) : Sound rs :=
  ⟨fun s member => sound.ids s (by simp [member]),fun s member => sound.payloads s (by simp [member]),
    (List.pairwise_cons.mp sound.ascending).2⟩

/-- The record that is read, and the cursor after it. -/
theorem readRecord_spec (reads : Reads c (r :: rs) gs) :
    ∃ c', readRecord c = some (r.1 + c.gid,c') ∧ Reads c' rs gs ∧ c'.gid = c.gid ∧ c'.current = r.1 + c.gid ∧
      HasPositions c'.wp r.2 := by
  have payload := reads.sound.payloads r (by simp)
  have small := reads.sound.ids r (by simp)
  obtain ⟨slack,memory⟩ := reads.p
  rw [encodeAll_cons,List.append_assoc] at memory
  obtain ⟨sp,read,has⟩ := advancePosId_encode payload small (encodeAll rs ++ slack)
  rw [← memory] at read has
  have returned : readRecord c = some (r.1 + c.gid,{ c with
      p := c.p.drop (encode r).length, left := c.left - (encode r).length,
      wp := (c.p.drop sp).take ((encode r).length - sp), current := r.1 + c.gid }) := by
    rw [readRecord,read]
    rfl
  refine ⟨_,returned,?_,rfl,rfl,has⟩
  refine ⟨reads.advance,reads.advanceTo,Sound.tail reads.sound,⟨slack,?_⟩,?_,reads.cur,reads.array,reads.group⟩
  · rw [memory]
    exact List.drop_left
  · have left := reads.left
    rw [encodeAll_cons,List.length_append] at left
    show c.left - (encode r).length = _
    omega

theorem peekId_of {p : List UInt8} {n id : Nat} (read : advanceId p = some (n,id)) : peekId p = some id := by
  rcases p with _ | ⟨b0,_ | ⟨b1,p⟩⟩
  · cases read
  · cases read
  · rw [advanceId,Option.map_eq_some_iff] at read
    obtain ⟨n,_,same⟩ := read
    cases same
    rfl

/-- A record that is passed over. -/
theorem Reads.pass (reads : Reads c (r :: rs) gs) :
    peekId c.p = some r.1 ∧ ∃ n, advanceId c.p = some (n,r.1) ∧
      Reads { c with p := c.p.drop n, left := c.left - n } rs gs := by
  have payload := reads.sound.payloads r (by simp)
  have small := reads.sound.ids r (by simp)
  obtain ⟨slack,memory⟩ := reads.p
  rw [encodeAll_cons,List.append_assoc] at memory
  have read := advanceId_encode payload small (encodeAll rs ++ slack)
  rw [← memory] at read
  constructor
  · exact peekId_of read
  · refine ⟨_,read,reads.advance,reads.advanceTo,Sound.tail reads.sound,⟨slack,?_⟩,?_,reads.cur,reads.array,reads.group⟩
    · rw [memory]
      exact List.drop_left
    · have left := reads.left
      rw [encodeAll_cons,List.length_append] at left
      show c.left - (encode r).length = _
      omega

/-- The scan stops at the first record whose id is not below `id`. -/
theorem scanGroup_spec {fuel : Nat} (id : Nat) (reads : Reads c rs gs) (some_ : rs ≠ []) (enough : rs.length ≤ fuel) :
    ∃ c' front rs', scanGroup fuel c id = some c' ∧ Reads c' rs' gs ∧ c'.gid = c.gid ∧ rs = front ++ rs' ∧
      (∀ r ∈ front, r.1 < id) ∧ ∀ r ∈ rs', id ≤ r.1 := by
  induction fuel generalizing c rs with
  | zero => exact absurd (List.eq_nil_of_length_eq_zero (Nat.le_zero.mp enough)) some_
  | succ fuel ih =>
    cases rs with
    | nil => exact absurd rfl some_
    | cons r rs =>
      obtain ⟨peeked,n,read,reads'⟩ := reads.pass
      rw [scanGroup,peeked]
      simp only
      by_cases less : r.1 < id
      · rw [if_pos less,read]
        simp only
        by_cases last : rs = []
        · rw [if_pos (reads'.left_iff.mpr last)]
          refine ⟨_,[r],rs,rfl,reads',rfl,rfl,?_,by simp [last]⟩
          intro s member
          rw [List.mem_singleton.mp member]
          exact less
        · rw [if_neg (fun zero => last (reads'.left_iff.mp zero))]
          obtain ⟨c',front,rs',scans,reads'',gid,shape,below,reached⟩ := ih reads' last (by simpa using enough)
          refine ⟨c',r :: front,rs',scans,reads'',gid,by rw [shape,List.cons_append],?_,reached⟩
          intro s member
          rcases List.mem_cons.mp member with rfl | other
          · exact less
          · exact below s other
      · rw [if_neg less]
        refine ⟨c,[],r :: rs,rfl,reads,rfl,rfl,by simp,?_⟩
        intro s member
        rcases List.mem_cons.mp member with rfl | other
        · omega
        · have := (List.pairwise_cons.mp reads.sound.ascending).1 s other
          omega

/-- The group that an id is in. -/
theorem mask_group {id : Nat} (small : id < 2 ^ 27) : id &&& 0x7fff000 = (id / 4096) <<< 12 := by
  have mask : 0x7fff000 = (2 ^ 15 - 1) <<< 12 := by decide
  have whole : id / 2 ^ 12 % 2 ^ 15 = id / 4096 := by omega
  rw [mask,and_high_bits,whole]

theorem posting_bounds {group : Nat} {x : Nat × List UInt8} (sound : Sound rs) (member : x ∈ posting (group <<< 12) rs) :
    group <<< 12 ≤ x.1 ∧ x.1 < (group + 1) <<< 12 := by
  obtain ⟨r,held,rfl⟩ := List.mem_map.mp member
  have small := sound.ids r held
  rw [Nat.shiftLeft_eq,Nat.shiftLeft_eq]
  simp only
  omega

theorem postings_bounds {group : Nat} {x : Nat × List UInt8} (array : GroupArray gs) (above : ∀ g ∈ gs, group < g.1.group)
    (member : x ∈ postings gs) : (group + 1) <<< 12 ≤ x.1 := by
  obtain ⟨g,held,inside⟩ := List.mem_flatMap.mp member
  have bounds := posting_bounds (array.holds g held).sound inside
  have less := above g held
  have shift : (group + 1) <<< 12 ≤ g.1.group <<< 12 := by
    rw [Nat.shiftLeft_eq,Nat.shiftLeft_eq]
    omega
  omega

theorem Reads.below {target : Nat} (reads : Reads c rs gs) (less : c.gid < (target / 4096) <<< 12) :
    ∀ x ∈ posting c.gid rs, x.1 < target := by
  intro x member
  obtain ⟨group,gid,_⟩ := reads.group
  rw [gid] at member less
  have bounds := posting_bounds reads.sound member
  omega

/-- The groups that are skipped hold only ids below the target. -/
theorem skipGroups_spec (target : Nat) (reads : Reads c rs gs) :
    ∃ b c', skipGroups ((target / 4096) <<< 12) c (gs.map Prod.fst) = some (b,c') ∧
      (b = false → ∀ x ∈ ahead c rs gs, x.1 < target) ∧
      (b = true → ∃ passed rs' gs', Reads c' rs' gs' ∧ (target / 4096) <<< 12 ≤ c'.gid ∧
        ahead c rs gs = passed ++ ahead c' rs' gs' ∧ ∀ x ∈ passed, x.1 < target) := by
  induction gs generalizing c rs with
  | nil =>
    refine ⟨_,c,rfl,fun less => ?_,fun reached => ⟨[],rs,[],reads,of_decide_eq_true reached,rfl,by simp⟩⟩
    have less' := of_decide_eq_false less
    intro x member
    rcases List.mem_append.mp member with here | later
    · exact reads.below (by omega) x here
    · cases later
  | cons g gs ih =>
    rw [List.map_cons,skipGroups]
    by_cases less : c.gid < (target / 4096) <<< 12
    · obtain ⟨c',loaded,reads',gid,some_⟩ := advanceGroup_spec reads.array reads.advance reads.advanceTo
      rw [if_pos less,loaded,Option.bind_some]
      obtain ⟨b,c'',skips,all,found⟩ := ih reads'
      have split : ahead c rs (g :: gs) = posting c.gid rs ++ ahead c' g.2 gs := by
        rw [ahead,ahead,gid]
        rfl
      refine ⟨b,c'',skips,fun no x member => ?_,fun yes => ?_⟩
      · rw [split] at member
        rcases List.mem_append.mp member with here | later
        · exact reads.below less x here
        · exact all no x later
      · obtain ⟨passed,rs',gs',reads'',reached,shape,below⟩ := found yes
        refine ⟨posting c.gid rs ++ passed,rs',gs',reads'',reached,by rw [split,shape,List.append_assoc],fun x member => ?_⟩
        rcases List.mem_append.mp member with here | later
        · exact reads.below less x here
        · exact below x later
    · rw [if_neg less]
      refine ⟨true,c,rfl,by simp,fun _ => ⟨[],rs,g :: gs,reads,by omega,rfl,by simp⟩⟩

theorem ascending_postings (array : GroupArray gs) : Ascending (postings gs) := by
  refine List.pairwise_flatMap.mpr ⟨fun g member => ?_,array.ascending.imp_of_mem fun {g h} first second less => ?_⟩
  · refine List.pairwise_map.mpr ((array.holds g member).sound.ascending.imp fun {r s} less => ?_)
    show r.1 + _ < s.1 + _
    omega
  · intro x inside y inside'
    have upper := posting_bounds (array.holds g first).sound inside
    have lower := posting_bounds (array.holds h second).sound inside'
    omega

/-! ## Calls -/

/-- What a call returns that leads to a place. -/
def returned : Place (List UInt8) → Nat
  | .on item => item.1
  | _ => 0

/-- The cursor stands at a place among the items. -/
inductive At (items : List (Nat × List UInt8)) (c : BlockCursor) : Place (List UInt8) → Prop
  | on {item : Nat × List UInt8} {rs : List Record} {gs : List Group} (stands : Stands items item (ahead c rs gs))
    (reads : Reads c rs gs) (current : c.current = item.1) (has : HasPositions c.wp item.2) : At items c (.on item)
  | ended (advance : c.advance = .empty) (advanceTo : c.advanceTo = .emptyTo) (current : c.current = 0) : At items c .ended

variable {items done : List (Nat × List UInt8)} {place : Place (List UInt8)}

/-- The record that is read is the next item. -/
theorem readRecord_at (ascending : Ascending items) (shape : items = done ++ ahead c (r :: rs) gs) (reads : Reads c (r :: rs) gs) :
    ∃ c', readRecord c = some (r.1 + c.gid,c') ∧ At items c' (.on (r.1 + c.gid,r.2)) := by
  obtain ⟨c',read,reads',gid,current,has⟩ := readRecord_spec reads
  have next : ahead c (r :: rs) gs = (r.1 + c.gid,r.2) :: ahead c' rs gs := by
    rw [ahead,ahead,gid]
    rfl
  exact ⟨c',read,.on ⟨ascending,done,by rw [shape,next]⟩ reads' current has⟩

theorem groupOrEmpty_at (array : GroupArray gs) (ascending : Ascending items) (shape : items = done ++ postings gs)
    (cur : c.cur = gs.map Prod.fst) (block : c.advance = .block) (blockTo : c.advanceTo = .blockTo) :
    ∃ c', groupOrEmpty c = some (returned (.of (postings gs).head?),c') ∧ At items c' (.of (postings gs).head?) := by
  rw [groupOrEmpty,cur]
  cases gs with
  | nil => exact ⟨_,rfl,.ended rfl rfl rfl⟩
  | cons g gs =>
    obtain ⟨c',loaded,reads,gid,some_⟩ := advanceGroup_spec array block blockTo
    obtain ⟨r,rs,records⟩ := List.exists_cons_of_ne_nil some_
    have first : postings (g :: gs) = ahead c' (r :: rs) gs := by
      rw [ahead,gid,← records]
      rfl
    rw [records] at reads
    obtain ⟨c'',read,at'⟩ := readRecord_at ascending (by rw [shape,first]) reads
    refine ⟨c'',?_,?_⟩
    · simp only [List.map_cons,loaded,Option.bind_some,read,first]
      rfl
    · rw [first]
      exact at'

theorem advanceBlockCursor_at (ascending : Ascending items) (shape : items = done ++ ahead c rs gs) (reads : Reads c rs gs) :
    ∃ c', advanceBlockCursor c = some (returned (.of (ahead c rs gs).head?),c') ∧ At items c' (.of (ahead c rs gs).head?) := by
  rw [advanceBlockCursor]
  cases rs with
  | nil =>
    rw [if_pos (reads.left_iff.mpr rfl)]
    exact groupOrEmpty_at reads.array ascending shape reads.cur reads.advance reads.advanceTo
  | cons r rs =>
    rw [if_neg (fun zero => by cases reads.left_iff.mp zero)]
    exact readRecord_at ascending shape reads

/-- What is ahead from a record on that is not below the target, in its group or a later one. -/
theorem ahead_reached {target : Nat} (reads : Reads c rs gs) (group : (target / 4096) <<< 12 ≤ c.gid)
    (reached : c.gid = (target / 4096) <<< 12 → ∀ r ∈ rs, target % 4096 ≤ r.1) : ∀ x ∈ ahead c rs gs, target ≤ x.1 := by
  intro x member
  obtain ⟨number,gid,above⟩ := reads.group
  rcases List.mem_append.mp member with here | later
  · obtain ⟨r,held,rfl⟩ := List.mem_map.mp here
    simp only
    by_cases same : c.gid = (target / 4096) <<< 12
    · have := reached same r held
      omega
    · omega
  · have := postings_bounds reads.array above later
    omega

/-- A seek passes over the items below the target. -/
theorem advanceBlockCursorTo_at {target : Nat} {item : Nat × List UInt8} (small : target < 2 ^ 27)
    (stands : Stands items item (ahead c rs gs)) (reads : Reads c rs gs) (current : c.current = item.1)
    (beyond : item.1 < target) :
    ∃ c', advanceBlockCursorTo c target = some (returned (.of (seek items target)),c') ∧ At items c' (.of (seek items target)) := by
  obtain ⟨before,whole⟩ := stands.split
  -- Both ways of going on read the first record from a cursor with only ids from the target on ahead.
  have reach : ∀ c' rs' gs' passed, Reads c' rs' gs' → ahead c rs gs = passed ++ ahead c' rs' gs' →
      (∀ x ∈ passed, x.1 < target) → (∀ x ∈ ahead c' rs' gs', target ≤ x.1) →
      ∃ c'', advanceBlockCursor c' = some (returned (.of (seek items target)),c'') ∧ At items c'' (.of (seek items target)) := by
    intro c' rs' gs' passed reads' shape below reached
    have stands' := stands
    rw [shape] at stands'
    rw [stands'.seek beyond below reached]
    refine advanceBlockCursor_at stands.ascending (?_ : items = (before ++ item :: passed) ++ ahead c' rs' gs') reads'
    rw [whole,shape]
    simp
  obtain ⟨b,c',skips,all,found⟩ := skipGroups_spec target reads
  rw [advanceBlockCursorTo,if_neg (by rw [current]; omega),reads.cur,mask_group small]
  simp only [skips]
  cases b with
  | false =>
    have none_ : seek items target = none := by
      have stands' := stands
      rw [← List.append_nil (ahead c rs gs)] at stands'
      exact stands'.seek beyond (all rfl) (by simp)
    rw [none_]
    exact ⟨_,rfl,.ended rfl rfl rfl⟩
  | true =>
    obtain ⟨passed,rs',gs',reads',group,shape,below⟩ := found rfl
    simp only
    by_cases empty : c'.left = 0
    · rw [if_pos empty]
      have noRecords := reads'.left_iff.mp empty
      obtain ⟨c'',read,at'⟩ := reach c' rs' gs' passed reads' shape below
        (ahead_reached reads' group fun _ r member => by rw [noRecords] at member; cases member)
      rw [advanceBlockCursor,if_pos empty] at read
      exact ⟨c'',read,at'⟩
    · rw [if_neg empty]
      by_cases same : c'.gid = (target / 4096) <<< 12
      · rw [if_pos same]
        have low : target &&& 0xfff = target % 4096 := Nat.and_two_pow_sub_one_eq_mod target 12
        have fuel : rs'.length ≤ c'.left + 1 := by
          have := length_le_bytes reads'.sound.payloads
          have left := reads'.left
          omega
        obtain ⟨c'',front,rs'',scans,reads'',gid,split,less,from_⟩ := scanGroup_spec (target % 4096) reads'
          (fun no => empty (reads'.left_iff.mpr no)) fuel
        rw [low,scans,Option.bind_some]
        refine reach c'' rs'' gs' (passed ++ posting c'.gid front) reads'' ?_ ?_
          (ahead_reached reads'' (by rw [gid]; exact group) fun _ => from_)
        · rw [shape,ahead,ahead,gid,split,posting,List.map_append]
          simp [posting]
        · intro x member
          rcases List.mem_append.mp member with before | after
          · exact below x before
          · obtain ⟨r,held,rfl⟩ := List.mem_map.mp after
            have := less r held
            simp only
            omega
      · rw [if_neg same]
        obtain ⟨c'',read,at'⟩ := reach c' rs' gs' passed reads' shape below
          (ahead_reached reads' group fun equal => absurd equal same)
        rw [advanceBlockCursor,if_neg empty] at read
        exact ⟨c'',read,at'⟩

/-- One call. -/
theorem call_at (order : Call) (small : ∀ target, order = .advanceTo target → target < 2 ^ 27) (at' : At items c place) :
    ∃ c', call c order = some (returned (next items place order),c') ∧ At items c' (next items place order) := by
  cases at' with
  | @on item rs gs stands reads current has =>
    cases order with
    | advance =>
      obtain ⟨before,whole⟩ := stands.split
      obtain ⟨c',read,at'⟩ := advanceBlockCursor_at stands.ascending
        (by rw [whole,List.append_cons] : items = (before ++ [item]) ++ ahead c rs gs) reads
      rw [← stands.above] at read at'
      exact ⟨c',by rw [call,advance,reads.advance]; exact read,at'⟩
    | advanceTo target =>
      rw [call,advanceTo,reads.advanceTo]
      by_cases reached : target ≤ item.1
      · rw [next,if_pos reached]
        exact ⟨c,by simp only [advanceBlockCursorTo,current,if_pos reached]; rfl,.on stands reads current has⟩
      · rw [next,if_neg reached]
        exact advanceBlockCursorTo_at (small target rfl) stands reads current (Nat.not_le.mp reached)
  | ended empty emptyTo current =>
    refine ⟨c,?_,.ended empty emptyTo current⟩
    cases order with
    | advance =>
      rw [call,advance,empty]
      rfl
    | advanceTo target =>
      rw [call,advanceTo,emptyTo]
      rfl

/-- The id that is returned, and exactly its position bytes; 0 past the last item. -/
def Agrees (out : Nat × List UInt8) : Place (List UInt8) → Prop
  | .on item => out.1 = item.1 ∧ ∀ positions, HasPositions positions item.2 ↔ positions = out.2
  | _ => out.1 = 0

theorem HasPositions.unique {positions' : List UInt8} (has : HasPositions positions data) (has' : HasPositions positions' data) :
    positions = positions' := by
  obtain ⟨control,rest,sp,shape,_,_,found,read⟩ := has.read
  obtain ⟨control',rest',sp',shape',_,_,found',read'⟩ := has'.read
  rw [shape] at shape'
  cases shape'
  have same := (read []).symm.trans (read' [])
  cases same
  rw [← found,← found']

theorem At.agrees (at' : At items c place) (some_ : place ≠ .start) : Agrees (returned place,c.wp) place := by
  cases at' with
  | on stands reads current has =>
    exact ⟨rfl,fun positions => ⟨fun has' => has'.unique has,fun same => same ▸ has⟩⟩
  | ended empty emptyTo current => rfl

theorem At.current (at' : At items c place) : c.current = returned place := by
  cases at' with
  | on stands reads current has => exact current
  | ended empty emptyTo current => exact current

/-- What `_advance` points to makes no difference. -/
theorem At.reset (at' : At items c place) (cb : AdvanceCb) : At items { c with _advance := cb } place := by
  cases at' with
  | on stands reads current has =>
    refine .on stands ?_ current has
    exact ⟨reads.advance,reads.advanceTo,reads.sound,reads.p,reads.left,reads.cur,reads.array,reads.group⟩
  | ended empty emptyTo current => exact .ended empty emptyTo current

theorem run_cons {c' : BlockCursor} {order : Call} {calls : List Call} {id : Nat} {outs : List (Nat × List UInt8)}
    (called : call c order = some (id,c')) (later : run c' calls = some outs) :
    run c (order :: calls) = some ((id,c'.wp) :: outs) := by
  rw [run,called,Option.bind_some]
  simp only [later,Option.map_some]

theorem run_at (calls : List Call) (small : ∀ target, .advanceTo target ∈ calls → target < 2 ^ 27) (at' : At items c place) :
    ∃ outs, run c calls = some outs ∧ List.Forall₂ Agrees outs (walk items place calls) := by
  induction calls generalizing c place with
  | nil => exact ⟨[],rfl,.nil⟩
  | cons order calls ih =>
    obtain ⟨c',called,at''⟩ := call_at order (fun target same => small target (by rw [same]; simp)) at'
    obtain ⟨outs,later,agree⟩ := ih (fun target member => small target (by simp [member])) at''
    refine ⟨_,run_cons called later,.cons ?_ agree⟩
    refine at''.agrees fun start => ?_
    rw [start] at at''
    cases at''

/-- The first advance returns what the cursor was advanced to when it was made. -/
theorem initTermCursor_at (array : GroupArray gs) :
    ∃ c c', initTermCursor (gs.map Prod.fst) = some c ∧ advance c = some (returned (.of (postings gs).head?),c') ∧
      At (postings gs) c' (.of (postings gs).head?) := by
  obtain ⟨c',made,at'⟩ := groupOrEmpty_at (c := ⟨0,.block,.blockTo,.block,[],0,[],0,gs.map Prod.fst⟩) array
    (ascending_postings array) (List.nil_append _).symm rfl rfl rfl
  refine ⟨acSReset c',{ c' with _advance := c'.advance },?_,?_,at'.reset _⟩
  · have first : advance ⟨0,.block,.blockTo,.block,[],0,[],0,gs.map Prod.fst⟩ = _ := made
    rw [initTermCursor,first]
    rfl
  · rw [← at'.current]
    rfl

/-- The calls of a cursor from an advance on walk over the ids of the records, and show
    the positions of each. -/
theorem posting_cursor_exact (array : GroupArray gs) (calls : List Call)
    (small : ∀ target, .advanceTo target ∈ calls → target < 2 ^ 27) :
    ∃ c outs, initTermCursor (gs.map Prod.fst) = some c ∧ run c (.advance :: calls) = some outs ∧
      List.Forall₂ Agrees outs (walk (postings gs) .start (.advance :: calls)) := by
  obtain ⟨c,c',made,first,at'⟩ := initTermCursor_at array
  obtain ⟨outs,later,agree⟩ := run_at calls small at'
  refine ⟨c,_,made,run_cons first later,.cons ?_ agree⟩
  refine at'.agrees fun start => ?_
  rw [start] at at'
  cases at'

end

/-- A record with two bytes of positions in its slot, and a block of two records that ends
    with the group. -/
def twoGroups : List Group :=
  [({ type := 0, group := 0, cell := .inline [82,0,7,9,0,0,0,0] },[(5,[2,7,9])]),
    ({ type := 1, group := 3, cell := .block (bytes 4 6 ++ encodeAll [(1,[0]),(2,[2,1,4])] ++ []) 0 },[(1,[0]),(2,[2,1,4])])]

theorem twoGroups_array : GroupArray twoGroups := by
  have two : ∀ a b : UInt8, Payload [2,a,b] := fun a b => ⟨2,[a,b],rfl,by decide,rfl⟩
  have none_ : Payload [0] := ⟨0,[],rfl,by decide,rfl⟩
  refine ⟨fun g member => ?_,by decide,by decide⟩
  rcases List.mem_cons.mp member with rfl | other
  · refine ⟨⟨by decide,fun r inside => ?_,by decide⟩,by decide,.inl ⟨rfl,(5,[2,7,9]),[0,0,0,0],rfl,rfl,rfl⟩⟩
    rw [List.mem_singleton.mp inside]
    exact two 7 9
  · rw [List.mem_singleton.mp other]
    refine ⟨⟨by decide,fun r inside => ?_,by decide⟩,by decide,
      .inr ⟨rfl,_,rfl,by decide +kernel,⟨1,by decide +kernel,by decide +kernel⟩,[],rfl⟩⟩
    rcases List.mem_cons.mp inside with rfl | last
    · exact none_
    · rw [List.mem_singleton.mp last]
      exact two 1 4

/-- From the slot to the second record of the block, and beyond it. -/
theorem posting_cursor_exact_two : ∃ c outs, initTermCursor (twoGroups.map Prod.fst) = some c ∧
    run c [.advance,.advanceTo 12290,.advanceTo 4,.advance] = some outs ∧
    List.Forall₂ Agrees outs (walk (postings twoGroups) .start [.advance,.advanceTo 12290,.advanceTo 4,.advance]) :=
  posting_cursor_exact twoGroups_array [.advanceTo 12290,.advanceTo 4,.advance] (by simp)

end AnotherC.PostingCursor
