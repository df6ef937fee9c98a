import BranchBound.Proofs.Wire.Queue

/-!
# Buffers after failures

Requests may fail in many ways: a value has another type or does not fit, a number of elements is
negative or too large, the bytes run out.  A buffer is as good after a failure as before it.  Its
cursor stays among its bytes, and a write that fails adds nothing.

A read that fails reports malformed data, and most of them have not moved the cursor.  Only a byte
that is no character, and the number of elements that do not follow it, have been read by then.

Main results:

- Theorem `Buffer.Request.run_failed`: where a request that fails leaves the cursor.
- Theorem `Buffer.Request.lawful`: what every request does in a buffer.
- Theorem `Buffer.continues_answers`: what a run of requests keeps.
- Theorem `Buffer.sound_through_failures`: what holds in every buffer that requests lead to.
-/

namespace BranchBound

/-! ## Actions that change nothing if they fail -/

namespace Action

variable {σ α β : Type}

/-- Whether an action that fails leaves the state as it was. -/
def FailsCleanly (x : Action σ α) : Prop :=
  ∀ s fault s', x.run s = (.error fault, s') → s' = s

/-- Where a function of a result fails, there was no result. -/
theorem failed_of_map {x : Action σ α} {f : α → β} {s s' : σ} {fault : Fault}
    (h : (do return f (← x) : Action σ β).run s = (.error fault, s')) :
    x.run s = (.error fault, s') := by
  rw [run_bind] at h
  split at h
  · cases h
  · rename_i hfailed
    cases h
    exact hfailed

theorem FailsCleanly.map {x : Action σ α} (hx : x.FailsCleanly) (f : α → β) :
    FailsCleanly (do return f (← x)) :=
  fun _ _ _ h => hx _ _ _ (failed_of_map h)

theorem failsCleanly_pure (a : α) : (pure a : Action σ α).FailsCleanly := by
  intro s fault s' h
  cases h

theorem failsCleanly_fail (e : Fault) : (fail e : Action σ α).FailsCleanly := by
  intro s fault s' h
  cases h
  rfl

end Action

namespace Buffer

theorem failsCleanly_take (n : Nat) : (take n).FailsCleanly := by
  intro b fault b' h
  by_cases hle : b.cursor + n ≤ b.size
  · rw [run_take_of_le hle] at h
    cases h
  · rw [run_take_of_lt (Nat.lt_of_not_le hle)] at h
    cases h
    rfl

theorem failsCleanly_readMany {α : Type} (width : Nat) (decode : List UInt8 → α) (length : Int) :
    (readMany width decode length).FailsCleanly := by
  by_cases hneg : length < 0
  · rw [readMany_of_neg hneg]
    exact Action.failsCleanly_fail _
  · rw [readMany_of_not_neg hneg]
    exact (failsCleanly_take _).map _

theorem failsCleanly_readRaw (length : Int) (type : ElementType) :
    (readRaw length type).FailsCleanly := by
  cases type with
  | whole => exact (failsCleanly_readMany _ _ _).map Reply.wholes
  | real => exact (failsCleanly_readMany _ _ _).map Reply.reals

/-- Whether an action takes a number of bytes if that many are left, and otherwise fails and takes
none. -/
def Takes {α : Type} (x : Action Buffer α) (n : Nat) : Prop :=
  ∀ b, if n ≤ b.remaining then ∃ a, x.run b = (.ok a, b.advance n)
    else ∃ fault, x.run b = (.error fault, b)

theorem takes_take {n : Nat} (hn : 0 < n) : Takes (take n) n := by
  intro b
  split
  · rename_i hleft
    have hle : b.cursor + n ≤ b.size := by
      unfold remaining at hleft
      omega
    exact ⟨_, run_take_of_le hle⟩
  · rename_i hleft
    have hlt : b.size < b.cursor + n := by
      unfold remaining at hleft
      omega
    exact ⟨_, run_take_of_lt hlt⟩

theorem Takes.map {α β : Type} {x : Action Buffer α} {n : Nat} (hx : Takes x n) (f : α → β) :
    Takes (do return f (← x)) n := by
  intro b
  have htaken := hx b
  split at htaken
  · rename_i hleft
    rcases htaken with ⟨a, htaken⟩
    rw [if_pos hleft]
    exact ⟨f a, Action.run_bind_of_ok htaken⟩
  · rename_i hleft
    rcases htaken with ⟨fault, hrefused⟩
    rw [if_neg hleft]
    exact ⟨fault, Action.run_bind_of_error hrefused⟩

theorem takes_readInt : Takes readInt 4 := (takes_take (by decide)).map Wire.decodeInt

/-- If an action takes bytes and only what comes after it fails, these bytes are lost. -/
theorem Takes.failed_bind {α β : Type} {x : Action Buffer α} {f : α → Action Buffer β} {n : Nat}
    (hx : Takes x n) (hf : ∀ a, (f a).FailsCleanly) {b b' : Buffer} {fault : Fault}
    (h : (x >>= f).run b = (.error fault, b')) :
    b' = if n ≤ b.remaining then b.advance n else b := by
  have hfirst := hx b
  split at hfirst
  · rename_i hleft
    rcases hfirst with ⟨a, hfirst⟩
    rw [Action.run_bind_of_ok hfirst] at h
    rw [if_pos hleft]
    exact hf a _ _ _ h
  · rename_i hleft
    rcases hfirst with ⟨e, hfirst⟩
    rw [Action.run_bind_of_error hfirst] at h
    rw [if_neg hleft]
    cases h
    rfl

theorem run_readChar_failed {b b' : Buffer} {fault : Fault}
    (h : readChar.run b = (.error fault, b')) :
    b' = if 1 ≤ b.remaining then b.advance 1 else b := by
  rw [readChar, Action.run_bind_of_ok (Action.run_state b)] at h
  refine (takes_take (by decide)).failed_bind (fun bs => ?_) h
  split
  · split
    · exact Action.failsCleanly_pure _
    · exact Action.failsCleanly_fail _
  · exact Action.failsCleanly_fail _

/-! ## Reads -/

namespace Request

theorem isWrite_or_isRead_or_eq_rewind (r : Request) : r.IsWrite ∨ r.IsRead ∨ r = rewind := by
  cases r <;> simp [IsWrite, IsRead]

/-- A read only moves the cursor, and never behind the end. -/
theorem exists_advance {r : Request} (hr : r.IsRead) {b : Buffer} (hb : b.cursor ≤ b.size) :
    ∃ n ≤ b.remaining, (r.run.run b).2 = b.advance n := by
  rcases hrun : r.run.run b with ⟨fault | reply, b'⟩
  · rcases (reads hr).refuses hb hrun with ⟨-, n, hn, rfl⟩
    exact ⟨n, hn, rfl⟩
  · rcases (reads hr).sound hb hrun with ⟨bs, rest, hnext, -, rfl⟩
    refine ⟨bs.length, ?_, rfl⟩
    rw [← length_unread, hnext, List.length_append]
    omega

/-! ## Failures -/

/-- How many bytes a request that fails has read by then, if there are that many. -/
def lost : Request → Nat
  | readChar => 1
  | readArray _ => 4
  | readInt | readReal | readRaw _ _ | writeInt _ | writeReal _ | writeText _ | writeRaw _ _
  | writeArray _ _ | writeDatum _ | rewind => 0

theorem failsCleanly_of_isWrite {r : Request} (hr : r.IsWrite) : r.run.FailsCleanly := by
  intro b fault b' h
  rcases run_write hr b with ⟨e, -, -, hok⟩ | ⟨fault', hfailed⟩
  · rw [hok] at h
    cases h
  · rw [hfailed] at h
    cases h
    rfl

theorem failsCleanly {r : Request} (hr : r.lost = 0) : r.run.FailsCleanly := by
  cases r with
  | readInt => exact ((failsCleanly_take 4).map _).map Reply.whole
  | readReal => exact ((failsCleanly_take 8).map _).map Reply.real
  | readChar | readArray _ => cases hr
  | readRaw type length => exact failsCleanly_readRaw length type
  | rewind =>
    intro b fault b' h
    cases h
  | _ => exact failsCleanly_of_isWrite trivial

/-- A request that fails leaves the bytes as they are, and the cursor behind what is lost. -/
theorem run_failed {r : Request} {b b' : Buffer} {fault : Fault}
    (h : r.run.run b = (.error fault, b')) :
    b' = if r.lost ≤ b.remaining then b.advance r.lost else b := by
  by_cases hlost : r.lost = 0
  · rw [hlost, if_pos (Nat.zero_le _)]
    exact failsCleanly hlost _ _ _ h
  · cases r with
    | readChar => exact run_readChar_failed (Action.failed_of_map h)
    | readArray type =>
      exact takes_readInt.failed_bind (fun length => failsCleanly_readRaw length type) h
    | _ => exact absurd rfl hlost

/-- What holds of a request in a buffer. -/
structure Lawful (r : Request) (b : Buffer) : Prop where
  /-- Only writes change the bytes. -/
  bytes_eq : ¬ r.IsWrite → (r.run.run b).2.bytes = b.bytes
  /-- Writes leave the cursor where it is. -/
  cursor_eq : r.IsWrite → (r.run.run b).2.cursor = b.cursor
  /-- A request that fails leaves the bytes as they are, and the cursor behind what is lost; only
  reads of characters and of arrays lose something. -/
  failed : ∀ fault b', r.run.run b = (.error fault, b') →
    b' = if r.lost ≤ b.remaining then b.advance r.lost else b
  /-- A read that fails reports malformed data. -/
  malformed : r.IsRead → ∀ fault b', r.run.run b = (.error fault, b') →
    ∃ cause, fault = .malformed cause
  /-- A read gives a value exactly if all bytes of the value come next. -/
  read_iff : r.IsRead → ∀ reply b', r.run.run b = (.ok reply, b') ↔
    ∃ bs rest, b.unread = bs ++ rest ∧ r.grammar bs reply ∧ b' = b.advance bs.length
  /-- The return to the first byte does not fail. -/
  rewound : r = rewind → r.run.run b = (.ok .done, { b with cursor := 0 })

/-- Every request does what it should where the cursor is among the bytes. -/
theorem lawful (r : Request) {b : Buffer} (hb : b.cursor ≤ b.size) : r.Lawful b where
  bytes_eq := by
    intro hr
    rcases r.isWrite_or_isRead_or_eq_rewind with hwrite | hread | rfl
    · exact absurd hwrite hr
    · rcases exists_advance hread hb with ⟨n, -, hrun⟩
      rw [hrun]
      rfl
    · rw [run_rewind]
  cursor_eq := by
    intro hr
    rcases run_write hr b with ⟨e, -, -, hrun⟩ | ⟨fault, hrun⟩
    · rw [hrun]
      rfl
    · rw [hrun]
  failed := fun _ _ h => run_failed h
  malformed := fun hr _ _ h => ((reads hr).refuses hb h).1
  read_iff := by
    intro hr reply b'
    constructor
    · exact fun h => (reads hr).sound hb h
    · rintro ⟨bs, rest, hnext, hbs, rfl⟩
      exact (reads hr).complete hb hnext hbs
  rewound := by
    rintro rfl
    exact run_rewind b

end Request

/-! ## Runs -/

/-- Whether a buffer may come from another one by requests: bytes are only added at the end, and
the cursor is among the bytes. -/
structure Continues (b b₀ : Buffer) : Prop where
  tag_eq : b.tag = b₀.tag
  bytes : b₀.bytes <+: b.bytes
  cursor_le : b.cursor ≤ b.size

theorem Continues.trans {b b₁ b₀ : Buffer} (h : b.Continues b₁) (h₀ : b₁.Continues b₀) :
    b.Continues b₀ :=
  ⟨h.tag_eq.trans h₀.tag_eq, h₀.bytes.trans h.bytes, h.cursor_le⟩

theorem continues_put {b : Buffer} (hb : b.cursor ≤ b.size) (e : Entry) :
    (b.put e).Continues b where
  tag_eq := rfl
  bytes := List.prefix_append _ _
  cursor_le := by
    have hgrown : (b.put e).size = b.size + e.bytes.length := List.length_append
    rw [hgrown]
    exact Nat.le_add_right_of_le hb

theorem continues_cursor {b : Buffer} {n : Nat} (hn : n ≤ b.size) :
    { b with cursor := n }.Continues b :=
  ⟨rfl, List.prefix_rfl, hn⟩

theorem Request.continues (r : Request) {b : Buffer} (hb : b.cursor ≤ b.size) :
    (r.run.run b).2.Continues b := by
  rcases r.isWrite_or_isRead_or_eq_rewind with hwrite | hread | rfl
  · rcases run_write hwrite b with ⟨e, -, -, hrun⟩ | ⟨fault, hrun⟩
    · rw [hrun]
      exact continues_put hb e
    · rw [hrun]
      exact continues_cursor hb
  · rcases exists_advance hread hb with ⟨n, hn, hrun⟩
    rw [hrun]
    unfold remaining at hn
    exact continues_cursor (by omega)
  · exact continues_cursor (Nat.zero_le _)

/-- Along a run of requests, whether or not they fail, bytes are only added at the end, and the
cursor stays among them. -/
theorem continues_answers (rs : List Request) {b : Buffer} (hb : b.cursor ≤ b.size) :
    (answers rs b).2.Continues b := by
  induction rs generalizing b with
  | nil => exact continues_cursor hb
  | cons r rs ih =>
    have hstep := r.continues hb
    exact (ih hstep.cursor_le).trans hstep

/-- A buffer that starts with any bytes is sound after every run of requests, those that fail
included.  From each run to a longer one bytes are only added at the end, the cursor is always among
the bytes, and every request does in the buffer what it should. -/
theorem sound_through_failures (tag : String) (data : List UInt8) (before after : List Request) :
    let b₀ : Buffer := { tag, bytes := data }
    let b := (answers before b₀).2
    b.Continues b₀ ∧ (answers after b).2.Continues b ∧ ∀ r : Request, r.Lawful b := by
  intro b₀ b
  have hbefore : b.Continues b₀ := continues_answers before (Nat.zero_le _)
  have hb := hbefore.cursor_le
  exact ⟨hbefore, continues_answers after hb, fun r => r.lawful hb⟩

/-- Four requests of this run fail: a character, an array, an integer behind the end, and a text of
two characters. -/
example : (answers [.writeInt (.integer 511), .readChar, .rewind, .readArray .whole, .readInt,
    .writeText "no", .rewind, .readInt] {}).2.cursor = 4 := by decide

end Buffer

end BranchBound
