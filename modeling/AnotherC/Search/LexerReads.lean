import AnotherC.Search.Lexer

/-!
# What the scanner reads

No loop of the scanner reads on behind the terminator, and each of its turns goes on by a
character at least (`turn_reads`). What it hands to `token_init` is inside of a string.
-/
namespace AnotherC.Lexer
open AnotherC.Tokens (TokenType Token Pool Addr)
open AnotherC.Lib.Text (Text)
set_option linter.unusedVariables false

section
variable {α β : Type}

theorem ok_bind (a : α) (f : α → Except Fault β) : (Except.ok a >>= f) = f a := rfl

theorem error_bind (e : Fault) (f : α → Except Fault β) : (Except.error e >>= f) = .error e := rfl

end

section
variable {s : Text} {p i fuel : Nat} {c : UInt8}

theorem char_ok (inside : i ≤ s.length) : ∃ c, char s i = .ok c := by
  have below : i < (s ++ [0]).length := by
    rw [List.length_append,List.length_singleton]
    omega
  rw [char,List.getElem?_eq_getElem below]
  exact ⟨_,rfl⟩

/-- Behind a character that is not the terminator there is another one. -/
theorem char_inside (read : char s i = .ok c) (more : c ≠ 0) : i < s.length := by
  by_contra outside
  rw [char] at read
  rcases Nat.lt_or_eq_of_le (Nat.le_of_not_lt outside) with behind | rfl
  · rw [List.getElem?_eq_none (by rw [List.length_append,List.length_singleton]; omega)] at read
    cases read
  · rw [List.getElem?_concat_length] at read
    cases read
    exact more rfl

theorem copy_ok (inside : p + i ≤ s.length) : ∃ token, copy s p i = .ok token := by
  rw [copy,if_pos (Nat.le_succ_of_le inside)]
  exact ⟨_,rfl⟩

theorem strndup_ok (inside : p ≤ s.length) (i : Nat) : strndup s p i = .ok ((s.drop p).take i) := if_pos inside

/-! ## Loops -/

theorem quotedEnd_reads (quote : UInt8) (inside : p ≤ s.length) (turns : s.length < p + fuel) :
    ∃ q, quotedEnd s quote fuel p = .ok q ∧ p ≤ q ∧ q ≤ s.length := by
  induction fuel generalizing p with
  | zero => omega
  | succ fuel ih =>
    obtain ⟨c,read⟩ := char_ok inside
    rw [quotedEnd,read,ok_bind]
    by_cases ends : c = 0 ∨ c = quote
    · rw [if_pos ends]
      exact ⟨p,rfl,Nat.le_refl _,inside⟩
    · rw [if_neg ends]
      have below := char_inside read (fun zero => ends (.inl zero))
      by_cases escape : c = 92
      · rw [if_pos escape]
        obtain ⟨d,next⟩ := char_ok (show p + 1 ≤ s.length from below)
        rw [next,ok_bind]
        by_cases more : d ≠ 0
        · rw [if_pos more]
          have := char_inside next more
          obtain ⟨q,found,later,last⟩ := ih (p := p + 2) (by omega) (by omega)
          exact ⟨q,found,by omega,last⟩
        · rw [if_neg more]
          obtain ⟨q,found,later,last⟩ := ih (p := p + 1) (by omega) (by omega)
          exact ⟨q,found,by omega,last⟩
      · rw [if_neg escape]
        obtain ⟨q,found,later,last⟩ := ih (p := p + 1) (by omega) (by omega)
        exact ⟨q,found,by omega,last⟩

theorem plainEnd_reads (eot : Text) (inside : p ≤ s.length) (turns : s.length < p + fuel) :
    ∃ q, plainEnd s eot fuel p = .ok q ∧ p ≤ q ∧ q ≤ s.length := by
  induction fuel generalizing p with
  | zero => omega
  | succ fuel ih =>
    obtain ⟨c,read⟩ := char_ok inside
    rw [plainEnd,read,ok_bind]
    by_cases ends : c = 0 ∨ c ≤ 32 ∨ 128 ≤ c ∨ c ∈ eot
    · rw [if_pos ends]
      exact ⟨p,rfl,Nat.le_refl _,inside⟩
    · rw [if_neg ends]
      have below := char_inside read (fun zero => ends (.inl zero))
      obtain ⟨q,found,later,last⟩ := ih (p := p + 1) (by omega) (by omega)
      exact ⟨q,found,by omega,last⟩

theorem blankEnd_reads (inside : p ≤ s.length) (turns : s.length < p + fuel) :
    ∃ q, blankEnd s fuel p = .ok q ∧ p ≤ q ∧ q ≤ s.length := by
  induction fuel generalizing p with
  | zero => omega
  | succ fuel ih =>
    obtain ⟨c,read⟩ := char_ok inside
    rw [blankEnd,read,ok_bind]
    by_cases blank : 0 < c ∧ c ≤ 32
    · rw [if_pos blank]
      have below := char_inside read (UInt8.pos_iff_ne_zero.mp blank.1)
      obtain ⟨q,found,later,last⟩ := ih (p := p + 1) (by omega) (by omega)
      exact ⟨q,found,by omega,last⟩
    · rw [if_neg blank]
      exact ⟨p,rfl,Nat.le_refl _,inside⟩

theorem getNextToken_reads (eot : Text) (inside : p ≤ s.length) :
    ∃ token q, getNextToken s eot p = .ok (token,q) ∧ p ≤ q ∧ q ≤ s.length := by
  obtain ⟨c,read⟩ := char_ok inside
  rw [getNextToken,read,ok_bind]
  by_cases quoted : c = 39 ∨ c = 34
  · rw [if_pos quoted]
    have some_ : c ≠ 0 := by
      rintro rfl
      revert quoted
      decide
    have below := char_inside read some_
    obtain ⟨q,found,later,last⟩ := quotedEnd_reads c (show p + 1 ≤ s.length from below)
      (show s.length < p + 1 + (s.length + 1) by omega)
    obtain ⟨d,next⟩ := char_ok last
    rw [found,ok_bind,next,ok_bind,strndup_ok below,ok_bind]
    refine ⟨_,_,rfl,?_⟩
    split
    · next same =>
      have := char_inside next (same ▸ some_)
      omega
    · omega
  · rw [if_neg quoted]
    obtain ⟨q,found,later,last⟩ := plainEnd_reads eot inside (show s.length < p + (s.length + 1) by omega)
    rw [found,ok_bind,strndup_ok inside,ok_bind]
    exact ⟨_,q,rfl,later,last⟩

/-- Where the token is empty, what the loop skips behind it is the character that it stands on. -/
theorem attrList_reads (bh : List Text) (inside : p ≤ s.length) (turns : s.length < p + fuel) :
    ∃ q found, attrList s fuel p bh = .ok (q,found) ∧ p ≤ q ∧ q ≤ s.length := by
  induction fuel generalizing p bh with
  | zero => omega
  | succ fuel ih =>
    obtain ⟨c,read⟩ := char_ok inside
    rw [attrList,read,ok_bind]
    by_cases ends : c = 0 ∨ c = 93
    · rw [if_pos ends]
      exact ⟨p,bh,rfl,Nat.le_refl _,inside⟩
    · rw [if_neg ends]
      obtain ⟨token,q,found,later,last⟩ := getNextToken_reads [93,44] inside
      obtain ⟨d,next⟩ := char_ok last
      rw [found,ok_bind]
      dsimp only
      rw [next,ok_bind]
      by_cases stops : d = 0 ∨ d = 93
      · rw [if_pos stops]
        have moved : q ≠ p := by
          rintro rfl
          cases read.symm.trans next
          exact ends stops
        obtain ⟨r,tokens,whole,later',last'⟩ := ih (append bh token) last (by omega)
        exact ⟨r,tokens,whole,by omega,last'⟩
      · rw [if_neg stops]
        have below := char_inside next (fun zero => stops (.inl zero))
        obtain ⟨r,tokens,whole,later',last'⟩ := ih (append bh token) (show q + 1 ≤ s.length from below) (by omega)
        exact ⟨r,tokens,whole,by omega,last'⟩

theorem parseAttr_reads (inside : p ≤ s.length) : ∃ q attrs, parseAttr s p = .ok (q,attrs) ∧ p ≤ q ∧ q ≤ s.length := by
  obtain ⟨c,read⟩ := char_ok inside
  rw [parseAttr,read,ok_bind]
  by_cases list : c = 91
  · rw [if_pos list]
    have below := char_inside read (by rw [list]; decide)
    obtain ⟨q,bh,found,later,last⟩ := attrList_reads [] (show p + 1 ≤ s.length from below)
      (show s.length < p + 1 + (s.length + 1) by omega)
    obtain ⟨d,next⟩ := char_ok last
    rw [found,ok_bind]
    dsimp only
    rw [next,ok_bind,ok_bind]
    dsimp only
    have behind : (if d = 93 then q + 1 else q) ≤ s.length := by
      split
      · next closed => exact char_inside next (by rw [closed]; decide)
      · exact last
    obtain ⟨token,r,whole,later',last'⟩ := getNextToken_reads [] behind
    rw [whole,ok_bind]
    refine ⟨r,_,rfl,?_,last'⟩
    split at later' <;> omega
  · rw [if_neg list,ok_bind]
    dsimp only
    obtain ⟨token,r,whole,later,last⟩ := getNextToken_reads [] inside
    rw [whole,ok_bind]
    exact ⟨r,_,rfl,later,last⟩

end

/-! ## A turn -/

/-- What the scanner hands over is inside of a string; a parameter has a second character. -/
structure Legal (call : Call) : Prop where
  start : call.p < call.s.length
  inside : call.p + call.len ≤ call.s.length
  param : call.attrs ≠ [] → call.type = .token ∧ ∃ c, char call.s (call.p + 1) = .ok c ∧ c ≠ 0

/-- Where the scanner stands: a token that has begun goes on to there. -/
structure Stand (text : Text) (s : Nat) (tokenStart : Option Nat) : Prop where
  inside : s ≤ text.length
  begun : ∀ start, tokenStart = some start → start < s ∧ ∀ i, start ≤ i → i < s → ∃ c, char text i = .ok c ∧ c ≠ 0

section
variable {text : Text} {th : Head} {s p : Nat} {tokenStart : Option Nat} {c : UInt8} {calls : List Call} {type : TokenType}

theorem pending_legal (stand : Stand text s tokenStart) : ∀ call ∈ pending text s tokenStart type, Legal call := by
  intro call member
  cases tokenStart with
  | none => cases member
  | some start =>
    have before := (stand.begun start rfl).1
    have inside := stand.inside
    rw [List.mem_singleton.mp member]
    refine ⟨?_,?_,nofun⟩
    · show start < text.length
      omega
    · show start + (s - start) ≤ text.length
      omega

theorem piece_legal (len : Nat) (type : TokenType) (start : p < text.length) (inside : p + len ≤ text.length) :
    Legal ⟨text,p,len,type,[]⟩ := ⟨start,inside,nofun⟩

theorem snoc_legal {call : Call} (legal : ∀ call ∈ calls, Legal call) (last : Legal call) :
    ∀ call' ∈ calls ++ [call], Legal call' := by
  intro call' member
  rcases List.mem_append.mp member with member | member
  · exact legal call' member
  · exact List.mem_singleton.mp member ▸ last

/-- What a turn has to give. -/
def Turns (text : Text) (s : Nat) (made : Except Fault (List Call × Nat × Option Nat)) : Prop :=
  ∃ calls s' tokenStart', made = .ok (calls,s',tokenStart') ∧ s < s' ∧ Stand text s' tokenStart' ∧ ∀ call ∈ calls, Legal call

/-- Behind most turns no token has begun. -/
theorem turns_none (moved : s < p) (inside : p ≤ text.length) (legal : ∀ call ∈ calls, Legal call) :
    Turns text s (.ok (calls,p,none)) := ⟨calls,p,none,rfl,moved,⟨inside,nofun⟩,legal⟩

theorem param_legal {start : Nat} {attrs : List Text} (stand : Stand text s (some start)) (read : char text s = .ok c) (more : c ≠ 0) :
    Legal ⟨(text.drop start).take (s + 1 - start),0,((text.drop start).take (s + 1 - start)).length,.token,attrs⟩ := by
  obtain ⟨before,within⟩ := stand.begun start rfl
  have below := char_inside read more
  have length : ((text.drop start).take (s + 1 - start)).length = s + 1 - start := by
    rw [List.length_take,List.length_drop]
    omega
  refine ⟨?_,?_,fun _ => ⟨rfl,?_⟩⟩
  · dsimp only
    rw [length]
    omega
  · dsimp only
    omega
  · have second : ∃ d, char text (start + 1) = .ok d ∧ d ≠ 0 := by
      rcases Nat.lt_or_eq_of_le (show start + 1 ≤ s from before) with inner | rfl
      · exact within (start + 1) (Nat.le_succ start) inner
      · exact ⟨c,read,more⟩
    obtain ⟨d,read',more'⟩ := second
    refine ⟨d,?_,more'⟩
    rw [← read',char,char]
    dsimp only
    rw [List.getElem?_append_left (by omega),List.getElem?_append_left (by omega),List.getElem?_take_of_lt (by omega),
      List.getElem?_drop]

/-- A turn goes on by a character at least and reads no further than to the terminator. -/
theorem turn_reads (stand : Stand text s tokenStart) (read : char text s = .ok c) (more : c ≠ 0)
    (climbs : ∀ type, ∃ found, hasParent th type = .ok found) : Turns text s (turn text th s tokenStart) := by
  have below := char_inside read more
  have flushed : ∀ call ∈ pending text s tokenStart .token, Legal call := pending_legal stand
  have one : ∀ type, Legal ⟨text,s,1,type,[]⟩ := fun type => piece_legal 1 type below below
  obtain ⟨d,next⟩ := char_ok (show s + 1 ≤ text.length from below)
  unfold turn
  rw [read,ok_bind]
  dsimp only
  by_cases star : c = 42
  · rw [if_pos star]
    cases tokenStart with
    | none => exact turns_none (Nat.lt_succ_self s) below (List.forall_mem_singleton.mpr (one _))
    | some start =>
      obtain ⟨braced,found⟩ := climbs .openBrace
      have before := (stand.begun start rfl).1
      dsimp only
      rw [found,ok_bind]
      cases braced with
      | true =>
        rw [if_pos rfl]
        have first : ∀ call ∈ pending text s (some start) .modifier, Legal call := pending_legal stand
        exact turns_none (Nat.lt_succ_self s) below (snoc_legal first (one _))
      | false =>
        rw [if_neg Bool.false_ne_true]
        exact turns_none (Nat.lt_succ_self s) below (List.forall_mem_singleton.mpr (piece_legal (s + 1 - start) _ (by omega) (by omega)))
  rw [if_neg star]
  by_cases colon : c = 58
  · rw [if_pos colon]
    cases tokenStart with
    | none => exact turns_none (Nat.lt_succ_self s) below (List.forall_mem_singleton.mpr (one _))
    | some start =>
      have before := (stand.begun start rfl).1
      obtain ⟨q,attrs,found,later,last⟩ := parseAttr_reads (show s + 1 ≤ text.length from below)
      dsimp only
      rw [found,ok_bind]
      dsimp only
      rw [strndup_ok (by omega),ok_bind]
      exact turns_none later last (List.forall_mem_singleton.mpr (param_legal stand read more))
  rw [if_neg colon]
  by_cases question : c = 63
  · rw [if_pos question]
    exact turns_none (Nat.lt_succ_self s) below (snoc_legal (pending_legal stand) (one _))
  rw [if_neg question]
  have doubled : ∀ (e : UInt8) (type : TokenType), e ≠ 0 →
      Turns text s (.ok (pending text s tokenStart .token ++ [⟨text,if d = e then s + 1 else s,1,type,[]⟩],
        (if d = e then s + 1 else s) + 1,none)) := by
    intro e type other
    by_cases same : d = e
    · have inner := char_inside next (same ▸ other)
      rw [if_pos same]
      exact turns_none (by omega) inner (snoc_legal flushed (piece_legal 1 type inner inner))
    · rw [if_neg same]
      exact turns_none (Nat.lt_succ_self s) below (snoc_legal flushed (one type))
  by_cases and_ : c = 38
  · rw [if_pos and_,next,ok_bind]
    exact doubled 38 .and (by decide)
  rw [if_neg and_]
  by_cases or_ : c = 124
  · rw [if_pos or_,next,ok_bind]
    exact doubled 124 .or (by decide)
  rw [if_neg or_]
  by_cases quote : c = 34
  · rw [if_pos quote]
    exact turns_none (Nat.lt_succ_self s) below (snoc_legal flushed (one _))
  rw [if_neg quote]
  by_cases dot : c = 46
  · rw [if_pos dot,next,ok_bind]
    by_cases twice : d = 46
    · have inner := char_inside next (by rw [twice]; decide)
      obtain ⟨e,third⟩ := char_ok (show s + 2 ≤ text.length from inner)
      rw [if_pos twice,third,ok_bind]
      by_cases last : e ≠ 0
      · rw [if_pos last]
        exact turns_none (by omega) inner (snoc_legal flushed (piece_legal 2 _ below inner))
      · rw [if_neg last]
        exact turns_none (Nat.lt_succ_self s) below (snoc_legal flushed (one _))
    · rw [if_neg twice,ok_bind,if_neg (by decide)]
      exact turns_none (Nat.lt_succ_self s) below (snoc_legal flushed (one _))
  rw [if_neg dot]
  by_cases other : c = 35 ∨ c = 126 ∨ c = 96 ∨ c = 59
  · rw [if_pos other]
    exact turns_none (Nat.lt_succ_self s) below (snoc_legal flushed (one _))
  rw [if_neg other]
  by_cases escape : c = 92
  · rw [if_pos escape,next,ok_bind]
    by_cases last : d ≠ 0
    · rw [if_pos last]
      exact turns_none (by omega) (char_inside next last) flushed
    · rw [if_neg last]
      exact turns_none (Nat.lt_succ_self s) below flushed
  rw [if_neg escape]
  by_cases blank : c = 39 ∨ (1 ≤ c ∧ c ≤ 32)
  · rw [if_pos blank]
    obtain ⟨q,found,later,last⟩ := blankEnd_reads (show s + 1 ≤ text.length from below)
      (show text.length < s + 1 + (text.length + 1) by omega)
    rw [found,ok_bind]
    exact turns_none later last (snoc_legal flushed (piece_legal 1 _ Nat.zero_lt_one (Nat.le_refl _)))
  rw [if_neg blank]
  cases mark c with
  | some type =>
    obtain ⟨quoted,found⟩ := climbs .dquote
    dsimp only
    rw [isQuoted,found,ok_bind]
    exact turns_none (Nat.lt_succ_self s) below (snoc_legal flushed (one _))
  | none =>
    refine ⟨[],s + 1,some (tokenStart.getD s),rfl,Nat.lt_succ_self s,⟨below,?_⟩,nofun⟩
    rintro start ⟨⟩
    cases tokenStart with
    | none =>
      refine ⟨Nat.lt_succ_self s,fun i low high => ⟨c,?_,more⟩⟩
      rw [show i = s from Nat.le_antisymm (Nat.le_of_lt_succ high) low,read]
    | some start =>
      obtain ⟨before,within⟩ := stand.begun start rfl
      refine ⟨Nat.lt_succ_of_lt before,fun i low high => ?_⟩
      rcases Nat.lt_succ_iff_lt_or_eq.mp high with inner | rfl
      · exact within i low inner
      · exact ⟨c,read,more⟩

end

end AnotherC.Lexer
