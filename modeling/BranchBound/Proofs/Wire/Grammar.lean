import BranchBound.Wire.Buffer

/-!
# Grammars of readers

A grammar says which bytes stand for which values.  A reader reads a grammar if it accepts every
value of the grammar that comes next in a buffer, accepts nothing else, and gets exactly past the
bytes of what it accepted.  Where nothing of the grammar comes next, it reports malformed data and
has read no further than the end.

Since a grammar describes a reader in both directions, that encodings are read back and that only
encodings are read are two facts about one grammar.

Main results:

- Theorem `Buffer.Reads.bind`: readers in sequence read the grammars in sequence.
- Theorems `Buffer.reads_readInt`, `Buffer.reads_readReal`, `Buffer.reads_readChar`,
  `Buffer.reads_readWholes`, `Buffer.reads_readReals`: the grammars of single fields and of
  elements.
- Theorem `Grammar.eq_of_each_real`: doubles other than `nan` stand for themselves alone.
-/

namespace BranchBound

/-! ## Doubles other than `nan` -/

namespace Binary64

/-- The bits of the number of a place. -/
theorem bits_ofPlace (negative : Bool) {place : Nat} (h : place ≤ placeCount) :
    (ofPlace negative place).bits = negative.toNat * signBit + place := by
  unfold ofPlace
  by_cases hlt : place < placeCount
  · rw [dif_pos hlt, bits]
  · rw [dif_neg hlt, bits]
    omega

/-- A pattern that is not read as `nan` is the one that is written. -/
theorem bits_ofBits {pattern : Nat} (hpattern : pattern < 2 * signBit)
    (h : ofBits pattern ≠ nan) : (ofBits pattern).bits = pattern := by
  unfold ofBits at h ⊢
  by_cases hplace : placeCount < pattern % signBit
  · exact absurd (if_pos hplace) h
  · simp only [if_neg hplace]
    rw [bits_ofPlace _ (Nat.le_of_not_lt hplace)]
    by_cases hnegative : signBit ≤ pattern
    · have hmod : pattern % signBit = pattern - signBit := by
        rw [Nat.mod_eq_sub_mod hnegative, Nat.mod_eq_of_lt (by omega)]
      rw [decide_eq_true hnegative, hmod, Bool.toNat_true]
      omega
    · rw [decide_eq_false hnegative, Nat.mod_eq_of_lt (by omega), Bool.toNat_false]
      omega

end Binary64

/-- Eight bytes that are not read as `nan` are the encoding of the double that they are read
as. -/
theorem Wire.encodeReal_decodeReal {bs : List UInt8} (hlength : bs.length = 8)
    (h : Wire.decodeReal bs ≠ .nan) : Wire.encodeReal (Wire.decodeReal bs) = bs := by
  have hlt : Wire.ofLittleEndian bs < 2 * Binary64.signBit := by
    have hbound := Wire.ofLittleEndian_lt bs
    rw [hlength] at hbound
    exact hbound
  unfold Wire.encodeReal Wire.decodeReal at *
  rw [Binary64.bits_ofBits hlt h, ← hlength]
  exact Wire.littleEndian_ofLittleEndian bs

/-- Which bytes stand for which values. -/
def Grammar (α : Type) : Type := List UInt8 → α → Prop

/-! ## What comes next in a buffer -/

namespace Buffer

/-- The bytes that have not been read. -/
def unread (b : Buffer) : List UInt8 := b.bytes.drop b.cursor

/-- The buffer after some more bytes were read. -/
def advance (b : Buffer) (n : Nat) : Buffer := { b with cursor := b.cursor + n }

@[simp] theorem size_advance (b : Buffer) (n : Nat) : (b.advance n).size = b.size := rfl

@[simp] theorem cursor_advance (b : Buffer) (n : Nat) :
    (b.advance n).cursor = b.cursor + n := rfl

theorem advance_advance (b : Buffer) (m n : Nat) :
    (b.advance m).advance n = b.advance (m + n) := by
  simp [advance, Nat.add_assoc]

theorem length_unread (b : Buffer) : b.unread.length = b.remaining := List.length_drop

theorem unread_advance (b : Buffer) (n : Nat) : (b.advance n).unread = b.unread.drop n := by
  simp [unread, advance, List.drop_drop]

/-- What comes after the bytes that come next. -/
theorem unread_advance_length {b : Buffer} {bs rest : List UInt8} (h : b.unread = bs ++ rest) :
    (b.advance bs.length).unread = rest := by
  rw [unread_advance, h, List.drop_left]

/-- The bytes that come next are all in the buffer. -/
theorem cursor_add_length_le {b : Buffer} {bs rest : List UInt8} (hb : b.cursor ≤ b.size)
    (h : b.unread = bs ++ rest) : b.cursor + bs.length ≤ b.size := by
  have hlength := congrArg List.length h
  rw [length_unread, List.length_append, remaining] at hlength
  omega

theorem length_decodeEach {α : Type} (width : Nat) (decode : List UInt8 → α) (n : Nat)
    (bs : List UInt8) : (decodeEach width decode n bs).length = n := by
  induction n generalizing bs with
  | zero => rfl
  | succ n ih => rw [decodeEach, List.length_cons, ih]

/-! ## Readers and their grammars -/

/-- A reader reads a grammar. -/
structure Reads {α : Type} (x : Action Buffer α) (G : Grammar α) : Prop where
  /-- What comes next and is in the grammar is read. -/
  complete : ∀ {b : Buffer} {bs rest : List UInt8} {a : α}, b.cursor ≤ b.size →
    b.unread = bs ++ rest → G bs a → x.run b = (.ok a, b.advance bs.length)
  /-- What is read came next and is in the grammar. -/
  sound : ∀ {b b' : Buffer} {a : α}, b.cursor ≤ b.size → x.run b = (.ok a, b') →
    ∃ bs rest, b.unread = bs ++ rest ∧ G bs a ∧ b' = b.advance bs.length
  /-- A failure is due to malformed data and leaves the cursor in the buffer. -/
  refuses : ∀ {b b' : Buffer} {e : Fault}, b.cursor ≤ b.size → x.run b = (.error e, b') →
    (∃ cause, e = .malformed cause) ∧ ∃ n, n ≤ b.remaining ∧ b' = b.advance n

end Buffer

namespace Grammar

variable {α β : Type}

/-- A value that takes no bytes. -/
def pure (a : α) : Grammar α := fun bs a' => bs = [] ∧ a' = a

/-- A value and, after it, one whose grammar depends on it. -/
def andThen (G : Grammar α) (H : α → Grammar β) : Grammar β := fun bs c =>
  ∃ a front back, bs = front ++ back ∧ G front a ∧ H a back c

/-- One value after the other. -/
def each (G : Grammar α) : List UInt8 → List α → Prop
  | bs, [] => bs = []
  | bs, a :: as => ∃ front back, bs = front ++ back ∧ G front a ∧ each G back as

/-- Integers of 32 bits. -/
def int : Grammar Int := fun bs n => Wire.Fits n ∧ bs = Wire.encodeInt n

/-- Doubles; several patterns stand for `nan`. -/
def real : Grammar Binary64 := fun bs x => bs.length = 8 ∧ x = Wire.decodeReal bs

/-- ASCII characters. -/
def char : Grammar Char := fun bs c => c.toNat < 128 ∧ bs = [UInt8.ofNat c.toNat]

/-- As many values as a length says. -/
def many (G : Grammar α) (length : Int) : Grammar (List α) := fun bs as =>
  (as.length : Int) = length ∧ G.each bs as

/-- Values that are preceded by their number. -/
def array (G : Grammar α) : Grammar (List α) := fun bs as =>
  ∃ back, Wire.Fits as.length ∧ G.each back as ∧ bs = Wire.encodeInt as.length ++ back

/-- The member that a code stands for, if it stands for one. -/
def member (found : Option α) : Grammar α := fun bs a => bs = [] ∧ found = some a

theorem int_iff {bs : List UInt8} {n : Int} :
    int bs n ↔ bs.length = 4 ∧ n = Wire.decodeInt bs := by
  constructor
  · rintro ⟨hfits, rfl⟩
    exact ⟨Wire.length_encodeInt n, (Wire.decodeInt_encodeInt hfits).symm⟩
  · intro h
    rw [h.2]
    exact ⟨Wire.fits_decodeInt bs, (Wire.encodeInt_decodeInt h.1).symm⟩

/-- A double is read back. -/
theorem real_encodeReal (x : Binary64) : real (Wire.encodeReal x) x :=
  ⟨Wire.length_encodeReal x, (Wire.decodeReal_encodeReal x).symm⟩

/-- Values of one width are one after the other in the groups of that width. -/
theorem each_iff {G : Grammar α} {width : Nat} {decode : List UInt8 → α}
    (hG : ∀ bs a, G bs a ↔ bs.length = width ∧ a = decode bs) {bs : List UInt8} {as : List α} :
    G.each bs as ↔
      bs.length = as.length * width ∧ as = Buffer.decodeEach width decode as.length bs := by
  induction as generalizing bs with
  | nil => simp [each, Buffer.decodeEach, List.length_eq_zero_iff]
  | cons a as ih =>
    constructor
    · rintro ⟨front, back, rfl, hfront, hback⟩
      rcases (hG front a).1 hfront with ⟨hwidth, rfl⟩
      rcases ih.1 hback with ⟨hlength, hvalues⟩
      constructor
      · rw [List.length_append, hwidth, hlength, List.length_cons, Nat.succ_mul, Nat.add_comm]
      · rw [List.length_cons, Buffer.decodeEach, List.take_left' hwidth, List.drop_left' hwidth,
          ← hvalues]
    · rintro ⟨hlength, hvalues⟩
      rw [List.length_cons, Nat.succ_mul] at hlength
      rw [List.length_cons, Buffer.decodeEach, List.cons.injEq] at hvalues
      refine ⟨bs.take width, bs.drop width, (List.take_append_drop width bs).symm, ?_, ?_⟩
      · exact (hG _ _).2 ⟨by rw [List.length_take]; omega, hvalues.1⟩
      · exact ih.2 ⟨by rw [List.length_drop]; omega, hvalues.2⟩

/-- Integers of 32 bits one after the other are their bytes one after the other. -/
theorem each_int_iff {bs : List UInt8} {ns : List Int} :
    int.each bs ns ↔ (∀ n ∈ ns, Wire.Fits n) ∧ bs = ns.flatMap Wire.encodeInt := by
  induction ns generalizing bs with
  | nil => simp [each]
  | cons n ns ih =>
    rw [each, List.forall_mem_cons, List.flatMap_cons]
    constructor
    · rintro ⟨front, back, rfl, ⟨hfits, rfl⟩, hback⟩
      rcases ih.1 hback with ⟨hrest, rfl⟩
      exact ⟨⟨hfits, hrest⟩, rfl⟩
    · rintro ⟨⟨hfits, hrest⟩, rfl⟩
      exact ⟨_, _, rfl, ⟨hfits, rfl⟩, ih.2 ⟨hrest, rfl⟩⟩

/-- Doubles one after the other are read back. -/
theorem each_real_flatMap (xs : List Binary64) : real.each (xs.flatMap Wire.encodeReal) xs := by
  induction xs with
  | nil => rfl
  | cons x xs ih => exact ⟨_, _, List.flatMap_cons, real_encodeReal x, ih⟩

/-- Bytes that are not read as `nan` are the encoding of the double that they stand for. -/
theorem eq_of_real {bs : List UInt8} {x : Binary64} (h : real bs x) (hx : x ≠ .nan) :
    bs = Wire.encodeReal x := by
  rcases h with ⟨hlength, hvalue⟩
  rw [hvalue] at hx ⊢
  exact (Wire.encodeReal_decodeReal hlength hx).symm

/-- Doubles other than `nan`, one after the other, stand for themselves alone. -/
theorem eq_of_each_real {bs : List UInt8} {xs : List Binary64} (h : real.each bs xs)
    (hxs : ∀ x ∈ xs, x ≠ .nan) : bs = xs.flatMap Wire.encodeReal := by
  induction xs generalizing bs with
  | nil => exact h
  | cons x xs ih =>
    rcases h with ⟨front, back, rfl, hfront, hback⟩
    rw [List.forall_mem_cons] at hxs
    rw [eq_of_real hfront hxs.1, ih hback hxs.2, List.flatMap_cons]

end Grammar

/-! ## What the readers read -/

namespace Buffer

variable {α β : Type}

/-- A grammar may be described in another way. -/
theorem Reads.congr {x : Action Buffer α} {G H : Grammar α} (hx : Reads x G)
    (h : ∀ bs a, G bs a ↔ H bs a) : Reads x H := by
  have hGH : G = H := by
    funext bs a
    exact propext (h bs a)
  rwa [← hGH]

/-- A value that is given without reading takes no bytes. -/
theorem reads_pure (a : α) : Reads (pure a) (Grammar.pure a) where
  complete := by
    rintro b bs rest a' - - ⟨rfl, rfl⟩
    rfl
  sound := by
    intro b b' a' hb hrun
    cases hrun
    exact ⟨[], b.unread, rfl, ⟨rfl, rfl⟩, rfl⟩
  refuses := by
    intro b b' e hb hrun
    cases hrun

/-- Nothing is read where malformed data is reported. -/
theorem reads_fail (cause : Malformed) :
    Reads (.fail (.malformed cause) : Action Buffer α) (fun _ _ => False) where
  complete := fun _ _ h => h.elim
  sound := by
    intro b b' a hb hrun
    cases hrun
  refuses := by
    intro b b' e hb hrun
    cases hrun
    exact ⟨⟨cause, rfl⟩, 0, Nat.zero_le _, rfl⟩

/-- Readers in sequence read the grammars in sequence. -/
theorem Reads.bind {x : Action Buffer α} {G : Grammar α} {f : α → Action Buffer β}
    {H : α → Grammar β} (hx : Reads x G) (hf : ∀ a, Reads (f a) (H a)) :
    Reads (x >>= f) (G.andThen H) where
  complete := by
    rintro b bs rest c hb hnext ⟨a, front, back, rfl, hfront, hback⟩
    rw [List.append_assoc] at hnext
    have hin : (b.advance front.length).cursor ≤ (b.advance front.length).size :=
      cursor_add_length_le hb hnext
    rw [Action.run_bind_of_ok (hx.complete hb hnext hfront),
      (hf a).complete hin (unread_advance_length hnext) hback, advance_advance,
      List.length_append]
  sound := by
    intro b b' c hb hrun
    rw [Action.run_bind] at hrun
    split at hrun
    · rename_i a b₁ hfirst
      rcases hx.sound hb hfirst with ⟨front, rest₁, hnext₁, hfront, rfl⟩
      have hin : (b.advance front.length).cursor ≤ (b.advance front.length).size :=
        cursor_add_length_le hb hnext₁
      rcases (hf a).sound hin hrun with ⟨back, rest, hnext, hback, rfl⟩
      rw [unread_advance_length hnext₁] at hnext
      refine ⟨front ++ back, rest, ?_, ⟨a, front, back, rfl, hfront, hback⟩, ?_⟩
      · rw [hnext₁, hnext, List.append_assoc]
      · rw [advance_advance, List.length_append]
    · cases hrun
  refuses := by
    intro b b' e hb hrun
    rw [Action.run_bind] at hrun
    split at hrun
    · rename_i a b₁ hfirst
      rcases hx.sound hb hfirst with ⟨front, rest₁, hnext₁, hfront, rfl⟩
      have hin : (b.advance front.length).cursor ≤ (b.advance front.length).size :=
        cursor_add_length_le hb hnext₁
      rcases (hf a).refuses hin hrun with ⟨hcause, n, hn, rfl⟩
      refine ⟨hcause, front.length + n, ?_, advance_advance b _ _⟩
      have hleft : (b.advance front.length).remaining = b.remaining - front.length := by
        unfold remaining
        rw [size_advance, cursor_advance, Nat.sub_add_eq]
      have hall := cursor_add_length_le hb hnext₁
      unfold remaining at *
      omega
    · rename_i e' b₁ hfirst
      cases hrun
      exact hx.refuses hb hfirst

/-- A function of what is read takes the same bytes. -/
theorem Reads.map {x : Action Buffer α} {G : Grammar α} (hx : Reads x G) (f : α → β) :
    Reads (do return f (← x)) (fun bs c => ∃ a, G bs a ∧ c = f a) := by
  refine Reads.congr (Reads.bind hx fun a => reads_pure (f a)) fun bs c => ?_
  constructor
  · rintro ⟨a, front, back, rfl, hfront, rfl, hvalue⟩
    rw [List.append_nil]
    exact ⟨a, hfront, hvalue⟩
  · rintro ⟨a, hbs, hvalue⟩
    exact ⟨a, bs, [], (List.append_nil bs).symm, hbs, rfl, hvalue⟩

/-- The next bytes are any bytes of that number. -/
theorem reads_take (n : Nat) : Reads (take n) (fun bs out => bs.length = n ∧ out = bs) where
  complete := by
    rintro b bs rest out hb hnext ⟨hlength, rfl⟩
    have hle := cursor_add_length_le hb hnext
    have htaken : (b.bytes.drop b.cursor).take out.length = out := by
      rw [show b.bytes.drop b.cursor = out ++ rest from hnext, List.take_left]
    rw [← hlength, run_take_of_le hle, htaken]
    rfl
  sound := by
    intro b b' out hb hrun
    by_cases hle : b.cursor + n ≤ b.size
    · rw [run_take_of_le hle] at hrun
      cases hrun
      have hlength : (b.unread.take n).length = n := by
        rw [List.length_take, length_unread, remaining]
        omega
      refine ⟨b.unread.take n, b.unread.drop n, (List.take_append_drop n _).symm,
        ⟨hlength, rfl⟩, ?_⟩
      rw [hlength]
      rfl
    · rw [run_take_of_lt (Nat.lt_of_not_le hle)] at hrun
      cases hrun
  refuses := by
    intro b b' e hb hrun
    by_cases hle : b.cursor + n ≤ b.size
    · rw [run_take_of_le hle] at hrun
      cases hrun
    · rw [run_take_of_lt (Nat.lt_of_not_le hle)] at hrun
      cases hrun
      exact ⟨⟨_, rfl⟩, 0, Nat.zero_le _, rfl⟩

/-- A value of a fixed width is decoded from the next bytes. -/
theorem reads_fixed (width : Nat) (decode : List UInt8 → α) :
    Reads (do return decode (← take width)) (fun bs a => bs.length = width ∧ a = decode bs) := by
  refine Reads.congr ((reads_take width).map decode) fun bs a => ?_
  constructor
  · rintro ⟨out, ⟨hlength, rfl⟩, hvalue⟩
    exact ⟨hlength, hvalue⟩
  · rintro ⟨hlength, hvalue⟩
    exact ⟨bs, ⟨hlength, rfl⟩, hvalue⟩

/-- Integers are read from four bytes. -/
theorem reads_readInt : Reads readInt Grammar.int :=
  Reads.congr (reads_fixed 4 Wire.decodeInt) fun _ _ => Grammar.int_iff.symm

/-- Doubles are read from eight bytes. -/
theorem reads_readReal : Reads readReal Grammar.real := reads_fixed 8 Wire.decodeReal

/-- Characters are read from one byte. -/
theorem reads_readChar : Reads readChar Grammar.char where
  complete := by
    rintro b bs rest c hb hnext ⟨hascii, rfl⟩
    have htake := (reads_take 1).complete hb hnext ⟨rfl, rfl⟩
    have hbyte : (UInt8.ofNat c.toNat).toNat = c.toNat := by
      rw [UInt8.toNat_ofNat']
      exact Nat.mod_eq_of_lt (by omega)
    rw [readChar, Action.run_bind_of_ok (Action.run_state b), Action.run_bind_of_ok htake]
    simp only [hbyte, hascii, if_true, Char.ofNat_toNat]
    rfl
  sound := by
    intro b b' c hb hrun
    rw [readChar, Action.run_bind_of_ok (Action.run_state b), Action.run_bind] at hrun
    split at hrun
    · rename_i out b₁ htake
      rcases (reads_take 1).sound hb htake with ⟨bs, rest, hnext, ⟨hlength, rfl⟩, rfl⟩
      rcases List.length_eq_one_iff.1 hlength with ⟨byte, rfl⟩
      by_cases hascii : byte.toNat < 128
      · simp only [hascii, if_true] at hrun
        cases hrun
        have hvalid : byte.toNat.isValidChar := Or.inl (by omega)
        have hchar : (Char.ofNat byte.toNat).toNat = byte.toNat := by
          rw [Char.ofNat, dif_pos hvalid]
          rfl
        refine ⟨[byte], rest, hnext, ⟨by rwa [hchar], ?_⟩, rfl⟩
        rw [hchar, UInt8.ofNat_toNat]
      · simp only [hascii, if_false] at hrun
        cases hrun
    · cases hrun
  refuses := by
    intro b b' e hb hrun
    rw [readChar, Action.run_bind_of_ok (Action.run_state b), Action.run_bind] at hrun
    split at hrun
    · rename_i out b₁ htake
      rcases (reads_take 1).sound hb htake with ⟨bs, rest, hnext, ⟨hlength, rfl⟩, rfl⟩
      rcases List.length_eq_one_iff.1 hlength with ⟨byte, rfl⟩
      by_cases hascii : byte.toNat < 128
      · simp only [hascii, if_true] at hrun
        cases hrun
      · simp only [hascii, if_false] at hrun
        cases hrun
        have hin := cursor_add_length_le hb hnext
        refine ⟨⟨_, rfl⟩, 1, ?_, rfl⟩
        unfold remaining
        rw [List.length_singleton] at hin
        omega
    · cases hrun
      rename_i htake
      exact (reads_take 1).refuses hb htake

theorem readMany_of_neg {width : Nat} {decode : List UInt8 → α} {length : Int}
    (h : length < 0) :
    readMany width decode length = .fail (.malformed (.negativeLength length)) := by
  unfold readMany
  rw [if_pos h]
  rfl

theorem readMany_of_not_neg {width : Nat} {decode : List UInt8 → α} {length : Int}
    (h : ¬ length < 0) :
    readMany width decode length =
      do return decodeEach width decode length.toNat (← take (length.toNat * width)) := by
  unfold readMany
  rw [if_neg h]

/-- Elements of one width are read as many as their number says. -/
theorem reads_readMany {G : Grammar α} {width : Nat} {decode : List UInt8 → α}
    (hG : ∀ bs a, G bs a ↔ bs.length = width ∧ a = decode bs) (length : Int) :
    Reads (readMany width decode length) (G.many length) := by
  by_cases hneg : length < 0
  · rw [readMany_of_neg hneg]
    refine Reads.congr (reads_fail _) fun bs as => ⟨False.elim, ?_⟩
    rintro ⟨hlength, -⟩
    omega
  · rw [readMany_of_not_neg hneg]
    refine Reads.congr (reads_fixed _ _) fun bs as => ?_
    unfold Grammar.many
    rw [Grammar.each_iff hG]
    constructor
    · rintro ⟨hlength, hvalues⟩
      have hnumber : as.length = length.toNat := by rw [hvalues, length_decodeEach]
      rw [hnumber]
      exact ⟨by omega, hlength, hvalues⟩
    · rintro ⟨hnumber, hlength, hvalues⟩
      have htoNat : length.toNat = as.length := by omega
      rw [htoNat]
      exact ⟨hlength, hvalues⟩

/-- Integers are read as many as their number says. -/
theorem reads_readWholes (length : Int) : Reads (readWholes length) (Grammar.int.many length) :=
  reads_readMany (fun _ _ => Grammar.int_iff) length

/-- Doubles are read as many as their number says. -/
theorem reads_readReals (length : Int) : Reads (readReals length) (Grammar.real.many length) :=
  reads_readMany (fun _ _ => Iff.rfl) length

/-- A number and as many elements are an array. -/
theorem Reads.array {G : Grammar α} {x : Int → Action Buffer (List α)}
    (hx : ∀ length, Reads (x length) (G.many length)) : Reads (readInt >>= x) G.array := by
  refine Reads.congr (reads_readInt.bind hx) fun bs as => ?_
  constructor
  · rintro ⟨length, _, back, rfl, ⟨hfits, rfl⟩, rfl, heach⟩
    exact ⟨back, hfits, heach, rfl⟩
  · rintro ⟨back, hfits, heach, rfl⟩
    exact ⟨as.length, _, back, rfl, ⟨hfits, rfl⟩, rfl, heach⟩

/-- Arrays of integers are read. -/
theorem reads_readWholeArray : Reads readWholeArray Grammar.int.array :=
  Reads.array reads_readWholes

/-- Arrays of doubles are read. -/
theorem reads_readRealArray : Reads readRealArray Grammar.real.array :=
  Reads.array reads_readReals

end Buffer

end BranchBound
