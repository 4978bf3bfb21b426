import ZMachine.Proofs.Dictionary.Token
import ZMachine.Proofs.Machine.Effect
import ZMachine.Proofs.Memory

/-!
# Where a typed line goes

What a machine does with a typed line is to write two runs of bytes: the characters with a zero byte
into the text buffer, and the number of words with a record for each into the parse buffer. If
neither reaches into the other buffer, both are there to be read, and no number in them was cut off.

## Main definitions

* `Machine.Wrote` — some bytes were written from an address on, and nothing else was changed.
* `TypedLine.kept` — the characters that a text buffer has room for.
* `Memory.HasTyped` — what memory holds after a line was typed.

## Main statements

* `Machine.wrote_acceptLine` — the bytes that are written for a line.
* `Machine.hasTyped_of_acceptLine` — what can be read after that.
-/

namespace ZMachine

/-- The characters of a line that a text buffer keeps. A zero byte follows them, and the first byte
of the buffer says how many bytes after itself there are for both; there is one at least. -/
def TypedLine.kept (line : String) (room : Byte) : List Char :=
  (normalise line).take (max room.toNat 1 - 1)

namespace Machine

variable {m m' m'' : Machine} {address : Nat} {bytes : List Byte}

/-! ## Bytes that are written -/

structure Wrote (address : Nat) (bytes : List Byte) (m m' : Machine) : Prop where
  eq : m' = { m with memory := m.memory.putAll address bytes }
  inside : ∀ k < bytes.length, address + k < m.memory.size

namespace Wrote

theorem nil (m : Machine) (address : Nat) : Wrote address [] m m :=
  ⟨rfl, nofun⟩

/-- Bytes written one after another are written as a whole. -/
theorem append {back : List Byte} (h : Wrote address bytes m m')
    (h' : Wrote (address + bytes.length) back m' m'') : Wrote address (bytes ++ back) m m'' := by
  obtain ⟨rfl, inside⟩ := h
  obtain ⟨rfl, inside'⟩ := h'
  refine ⟨by simp only [Memory.putAll_append], fun k short => ?_⟩
  rw [List.length_append] at short
  by_cases first : k < bytes.length
  · exact inside k first
  · have := inside' (k - bytes.length) (by omega)
    rw [Memory.size_putAll] at this
    omega

theorem holds (h : Wrote address bytes m m') : m'.memory.Holds address bytes := by
  obtain ⟨rfl, inside⟩ := h
  cases bytes with
  | nil => trivial
  | cons b rest =>
    have last := inside rest.length (Nat.lt_succ_self _)
    exact Memory.holds_putAll (by rw [List.length_cons]; omega)

theorem size_eq (h : Wrote address bytes m m') : m'.memory.size = m.memory.size := by
  rw [h.eq]
  exact Memory.size_putAll _ _ _

theorem get_of_apart (h : Wrote address bytes m m') {other : Nat}
    (apart : other < address ∨ address + bytes.length ≤ other) :
    m'.memory.get other = m.memory.get other := by
  rw [h.eq]
  exact Memory.get_putAll_of_apart apart

/-- What lies beside the bytes that were written is still there. -/
theorem holds_of_apart (h : Wrote address bytes m m') {other : Nat} {held : List Byte}
    (holds : m.memory.Holds other held)
    (apart : other + held.length ≤ address ∨ address + bytes.length ≤ other) :
    m'.memory.Holds other held := by
  rw [h.eq]
  exact holds.putAll apart

end Wrote

theorem wrote_writeByte {b : Byte} (done : answer (writeByte address b) m = .ok ()) :
    Wrote address [b] m (finalState (writeByte address b) m) := by
  have run := run_of_answer done
  generalize finalState (writeByte address b) m = m' at run ⊢
  rw [run_writeByte] at run
  split_ifs at run with dynamic inside
  cases run
  exact ⟨rfl, fun k short => Nat.lt_of_lt_of_le (Nat.add_lt_add_left short address) inside⟩

theorem wrote_writeWord {w : Word} (done : answer (writeWord address w) m = .ok ()) :
    Wrote address [Word.highByte w, Word.lowByte w] m (finalState (writeWord address w) m) := by
  have run := run_of_answer done
  generalize finalState (writeWord address w) m = m' at run ⊢
  rw [run_writeWord] at run
  split_ifs at run with dynamic inside
  cases run
  exact ⟨rfl, fun k short => Nat.lt_of_lt_of_le (Nat.add_lt_add_left short address) inside⟩

/-- Two actions that write one after the other. -/
theorem wrote_bind {x y : MachineM Unit} (front : List Byte) {back : List Byte}
    (first : answer x m = .ok () → Wrote address front m (finalState x m))
    (rest : ∀ m', m'.dictionary = m.dictionary → answer y m' = .ok () →
      Wrote (address + front.length) back m' (finalState y m'))
    (done : answer (x >>= fun _ => y) m = .ok ()) :
    Wrote address (front ++ back) m (finalState (x >>= fun _ => y) m) := by
  obtain ⟨_, s, run, done, left⟩ := exists_of_answer_bind done
  have wrote := first (answer_of_ok run)
  rw [finalState_of_ok run] at wrote
  rw [left]
  exact wrote.append (rest s (by rw [wrote.eq]) done)

theorem wrote_writeBytes (done : answer (writeBytes address bytes) m = .ok ()) :
    Wrote address bytes m (finalState (writeBytes address bytes) m) := by
  induction bytes generalizing m address with
  | nil => exact .nil m address
  | cons b rest ih => exact wrote_bind [b] wrote_writeByte (fun _ _ => ih) done

/-- A text is written after the first byte of its buffer, with a zero byte behind it. -/
theorem wrote_writeText {buffer : Nat} {text : List Char}
    (done : answer (writeText buffer text) m = .ok ()) :
    Wrote (buffer + 1) (text.map Token.code ++ [0]) m (finalState (writeText buffer text) m) := by
  refine wrote_bind _ wrote_writeBytes (fun m' _ done => ?_) done
  rw [List.length_map]
  exact wrote_writeByte done

/-- The bytes for a word: the address of its entry, its length, and its place in the text buffer. -/
def record (d : Dictionary) (word : Token) : List Byte :=
  let entry := UInt16.ofNat ((d.lookup word.text).getD 0)
  [Word.highByte entry, Word.lowByte entry, UInt8.ofNat word.text.utf8ByteSize,
    UInt8.ofNat (word.offset + 1)]

@[simp] theorem length_record (d : Dictionary) (word : Token) : (record d word).length = 4 := rfl

theorem wrote_writeRecord {word : Token} (done : answer (writeRecord address word) m = .ok ()) :
    Wrote address (record m.dictionary word) m (finalState (writeRecord address word) m) := by
  obtain ⟨_, _, ⟨⟩, done, left⟩ := exists_of_answer_bind done
  rw [writeRecord, left]
  exact wrote_bind [_, _] wrote_writeWord
    (fun _ _ => wrote_bind [_] wrote_writeByte fun _ _ => wrote_writeByte) done

/-- The records of words are written one after another. -/
theorem wrote_writeRecords {words : List Token}
    (done : answer (writeRecords address words) m = .ok ()) :
    Wrote address (words.flatMap (record m.dictionary)) m
      (finalState (writeRecords address words) m) := by
  induction words generalizing m address with
  | nil => exact .nil m address
  | cons word rest ih =>
    refine wrote_bind _ wrote_writeRecord (fun m' same done => ?_) done
    rw [← same]
    exact ih done

theorem byteAt_of_readByte {b : Byte} (run : (readByte address).run m = .ok b m') :
    m.memory.byteAt address = .ok b ∧ m = m' := by
  rw [readByte, EStateM.run_bind, EStateM.run_get] at run
  dsimp only at run
  rw [EStateM.run_lift] at run
  split at run
  · next found =>
    cases run
    exact ⟨found, rfl⟩
  · cases run

def parsed (d : Dictionary) (words : List Token) : List Byte :=
  UInt8.ofNat words.length :: words.flatMap (record d)

theorem length_parsed_take_le (d : Dictionary) (words : List Token) (limit : Nat) :
    (parsed d (words.take limit)).length ≤ 4 * limit + 1 := by
  have length : (parsed d (words.take limit)).length = 4 * (words.take limit).length + 1 := by
    rw [parsed, List.length_cons, List.length_flatMap]
    simp [Nat.mul_comm]
  have := List.length_take_le limit words
  omega

/-- All that is written for a line. -/
theorem wrote_acceptLine {text parse : Nat} {line : String}
    (done : answer (acceptLine text parse line) m = .ok ()) :
    ∃ room words limit mid, m.memory.byteAt text = .ok room ∧
      m.dictionary.tokenise (String.ofList (TypedLine.kept line room)) = .ok words ∧
      Wrote (text + 1) ((TypedLine.kept line room).map Token.code ++ [0]) m mid ∧
      mid.memory.byteAt parse = .ok limit ∧
      Wrote (parse + 1) (parsed m.dictionary (words.take limit.toNat)) mid
        (finalState (acceptLine text parse line) m) := by
  obtain ⟨room, _, read, rest, left⟩ := exists_of_answer_bind done
  obtain ⟨found, rfl⟩ := byteAt_of_readByte read
  have capacity : room.toNat - 1 = max room.toNat 1 - 1 := by omega
  rw [acceptLine, left]
  dsimp only at rest ⊢
  rw [capacity] at rest ⊢
  obtain ⟨_, mid, written, rest, left⟩ := exists_of_answer_bind rest
  have wrote := wrote_writeText (answer_of_ok written)
  rw [finalState_of_ok written] at wrote
  rw [left]
  obtain ⟨_, _, ⟨⟩, rest, left⟩ := exists_of_answer_bind rest
  rw [left]
  obtain ⟨words, cut, rest, left⟩ := exists_of_answer_lift_bind rest
  rw [left]
  obtain ⟨limit, _, read, rest, left⟩ := exists_of_answer_bind rest
  obtain ⟨limited, rfl⟩ := byteAt_of_readByte read
  rw [left]
  have same : mid.dictionary = m.dictionary := by rw [wrote.eq]
  rw [same] at cut
  refine ⟨room, words, limit, mid, found, cut, wrote, limited, ?_⟩
  rw [← same]
  refine wrote_bind [_] wrote_writeByte (fun m' same done => ?_) rest
  rw [← same]
  exact wrote_writeRecords done

end Machine

/-! ## What is there to be read -/

/-- The record at an address is that of a word, which stands in the text buffer at the place that
the record names. -/
structure TypedLine.IsRecord (m : Memory) (d : Dictionary) (text address : Nat) (word : Token) :
    Prop where
  entry : ∃ w, m.wordAt address = .ok w ∧ w.toNat = (d.lookup word.text).getD 0
  length : ∃ b, m.byteAt (address + 2) = .ok b ∧ b.toNat = word.text.length
  place : ∃ b, m.byteAt (address + 3) = .ok b ∧ b.toNat = word.offset + 1 ∧
    m.Holds (text + b.toNat) (word.text.toList.map Token.code)

theorem TypedLine.length_kept_lt (line : String) (room : Byte) :
    (kept line room).length + 1 ≤ max 1 room.toNat := by
  have := List.length_take_le (max room.toNat 1 - 1) (normalise line)
  rw [kept]
  omega

theorem TypedLine.ascii_kept (line : String) (room : Byte) :
    ∀ c ∈ kept line room, c.toNat < 128 :=
  fun c mem => ascii_normalise c (List.mem_of_mem_take mem)

namespace Token

variable {text : List Char} {word : Token}

theorem LiesIn.holds {m : Memory} {address : Nat} (lies : word.LiesIn text) {rest : List Byte}
    (held : m.Holds address (text.map code ++ rest)) :
    m.Holds (address + word.offset) (word.text.toList.map code) := by
  obtain ⟨before, own, after, rfl, place, same⟩ := lies
  rw [same, String.toList_ofList, ← place]
  simp only [List.map_append, List.append_assoc, Memory.holds_append, List.length_map] at held
  exact held.2.1

end Token

namespace Machine

open TypedLine

variable {m m' : Machine} {textBuffer parseBuffer : Nat} {line : String} {words : List Token}

/-- What has become of a machine that took a line into two buffers, when `words` are the words of
what the text buffer keeps. -/
structure TookLine (textBuffer parseBuffer : Nat) (line : String) (words : List Token)
    (m m' : Machine) : Prop where
  cut : m.dictionary.tokenise (String.ofList (kept line (m.memory.get textBuffer))) = .ok words
  text : m'.memory.Holds (textBuffer + 1)
    ((kept line (m.memory.get textBuffer)).map Token.code ++ [0])
  count : ∃ b, m'.memory.byteAt (parseBuffer + 1) = .ok b ∧
    b.toNat = min (m.memory.get parseBuffer).toNat words.length
  records : ∀ index word, index < (m.memory.get parseBuffer).toNat → words[index]? = some word →
    IsRecord m'.memory m.dictionary textBuffer (parseBuffer + 2 + 4 * index) word
  /-- The words follow the order of the line, and do not overlap. -/
  order : words.Pairwise Token.Before
  /-- Only memory has changed, and only inside the two buffers. -/
  machine : m' = { m with memory := m'.memory }
  size : m'.memory.size = m.memory.size
  others : ∀ a, (a < textBuffer + 1 ∨ textBuffer + max 1 (m.memory.get textBuffer).toNat < a) →
    (a < parseBuffer + 1 ∨ parseBuffer + 1 + 4 * (m.memory.get parseBuffer).toNat < a) →
    m'.memory.get a = m.memory.get a

/-- The bytes of a record tell the word that it is for. -/
theorem isRecord_of_holds {memory : Memory} {d : Dictionary} {typed : List Char} {word : Token}
    {address : Nat} {rest : List Byte} (lies : word.LiesIn typed)
    (ascii : ∀ c ∈ typed, c.toNat < 128) (short : typed.length < 255)
    (below : ∀ place, d.lookup word.text = some place → place < 0x10000)
    (text : memory.Holds (textBuffer + 1) (typed.map Token.code ++ rest))
    (held : memory.Holds address (record d word)) :
    IsRecord memory d textBuffer address word := by
  have bounds := lies.bounds
  have entry : (d.lookup word.text).getD 0 < 65536 := by
    cases found : d.lookup word.text with
    | none => decide
    | some place => exact below place found
  have length : (UInt8.ofNat word.text.utf8ByteSize).toNat = word.text.length := by
    rw [lies.utf8ByteSize_eq ascii, UInt8.toNat_ofNat', Nat.mod_eq_of_lt (by omega)]
  have place : (UInt8.ofNat (word.offset + 1)).toNat = word.offset + 1 := by
    rw [UInt8.toNat_ofNat', Nat.mod_eq_of_lt (by omega)]
  obtain ⟨inside, high, inside', low, long, last⟩ := held
  refine ⟨⟨_, Memory.wordAt_eq_ok.mpr ⟨inside, high, inside', low, trivial⟩, ?_⟩,
    ⟨_, Memory.byteAt_eq_ok.mpr ⟨long, last.1, trivial⟩, length⟩,
    ⟨_, Memory.byteAt_eq_ok.mpr ⟨last.2.1, last.2.2.1, trivial⟩, place, ?_⟩⟩
  · rw [UInt16.toNat_ofNat', Nat.mod_eq_of_lt entry]
  · rw [place, Nat.add_comm word.offset, ← Nat.add_assoc]
    exact lies.holds text

/-- If the buffers are apart from each other, and entries of the dictionary have addresses of a
word, then a line that was taken is there to be read. -/
theorem tookLine_of_acceptLine
    (apart : textBuffer + max 1 (m.memory.get textBuffer).toNat < parseBuffer ∨
      parseBuffer + 1 + 4 * (m.memory.get parseBuffer).toNat < textBuffer)
    (below : ∀ typed place, m.dictionary.lookup typed = some place → place < 0x10000)
    (done : answer (acceptLine textBuffer parseBuffer line) m = .ok ()) :
    ∃ words, TookLine textBuffer parseBuffer line words m
      (finalState (acceptLine textBuffer parseBuffer line) m) := by
  obtain ⟨room, words, limit, mid, found, cut, wroteText, limited, wroteWords⟩ :=
    wrote_acceptLine done
  generalize finalState (acceptLine textBuffer parseBuffer line) m = m' at wroteWords ⊢
  obtain ⟨-, rfl, -⟩ := Memory.byteAt_eq_ok.mp found
  obtain ⟨-, limitIs, -⟩ := Memory.byteAt_eq_ok.mp limited
  have ascii := ascii_kept line (m.memory.get textBuffer)
  obtain ⟨_, cut', lies⟩ := Token.ofLine_ascii m.dictionary.separators ascii
  obtain rfl := Except.ok.inj (cut.symm.trans cut')
  have textWidth : ((kept line (m.memory.get textBuffer)).map Token.code ++ [0]).length ≤
      max 1 (m.memory.get textBuffer).toNat := by
    rw [List.length_append, List.length_map]
    exact length_kept_lt line _
  have wordsWidth := length_parsed_take_le m.dictionary words limit.toNat
  -- The text does not reach into the parse buffer, so that says as before how much it holds.
  obtain rfl : m.memory.get parseBuffer = limit := by
    rw [← limitIs, wroteText.get_of_apart]
    omega
  have text := wroteWords.holds_of_apart wroteText.holds (by omega)
  have counted := wroteWords.holds
  have short : (kept line (m.memory.get textBuffer)).length < 255 := by
    have := length_kept_lt line (m.memory.get textBuffer)
    have := (m.memory.get textBuffer).toNat_lt
    omega
  refine ⟨words, cut, text, ⟨_, Memory.byteAt_eq_ok.mpr ⟨counted.1, counted.2.1, trivial⟩, ?_⟩,
    fun index word inside found => ?_, Token.pairwise_ofLine ascii cut, ?_,
    wroteWords.size_eq.trans wroteText.size_eq, fun a outsideText outsideWords => ?_⟩
  · have few := Nat.min_le_left (m.memory.get parseBuffer).toNat words.length
    rw [List.length_take, UInt8.toNat_ofNat',
      Nat.mod_eq_of_lt (Nat.lt_of_le_of_lt few (m.memory.get parseBuffer).toNat_lt)]
  · have held := Memory.Holds.of_flatMap counted.2.2 (length_record m.dictionary)
      ((List.getElem?_take_of_lt inside).trans found)
    rw [Nat.mul_comm index] at held
    exact isRecord_of_holds (lies word (List.mem_of_getElem? found)) ascii short
      (below word.text) text held
  · rw [wroteWords.eq, wroteText.eq]
  · rw [wroteWords.get_of_apart (outsideWords.imp_right fun _ => by omega),
      wroteText.get_of_apart (outsideText.imp_right fun _ => by omega)]

end Machine
end ZMachine
