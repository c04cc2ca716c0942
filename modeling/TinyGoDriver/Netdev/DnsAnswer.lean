import TinyGoDriver.Go.Bits

/-!
# Answers of a name server

A response (RFC 1035, section 4) consists of a header, questions and records.  The name that a
record is about is written as labels up to an empty one, as a pointer to an earlier name, or as
labels up to a pointer.  `parseDNSAnswer` passes over the question and then goes from record to
record.

The main result is `parseDNSAnswer_encode`.  No message makes `parseDNSAnswer` index out of range,
and it returns the first address record if there is one question and no name it passes over is
written as labels up to a pointer: where it looks for the end of labels it takes a pointer for the
length of a label, of at least 192 bytes.  In a short message this leads past the end.  In a long
one the search goes on at whatever byte is there.
-/

namespace Netdev

open GoRt List

/-! ### The parser -/

inductive ResolveErr where
  /-- `ErrHostUnknown` -/
  | hostUnknown
  deriving DecidableEq, Repr

/-- `time.Second`, in nanoseconds. -/
def second : ℕ := 1000000000

/-- The loop over the name of the question, of at most `fuel` rounds. -/
def questionName (msg : List UInt8) : ℕ → ℕ → Go ResolveErr ℕ
  | 0, _ => .error .diverge
  | fuel + 1, i =>
    if i < msg.length then do
      let b ← idx msg i
      if b = 0 then
        .ok i
      else if b &&& 0xC0 = 0xC0 then
        .ok (i + 2)
      else
        questionName msg fuel (i + b.toNat + 1)
    else
      .ok i

/-- The loop over the labels of the name of a record, of at most `fuel` rounds. -/
def recordLabels (msg : List UInt8) : ℕ → ℕ → Go ResolveErr ℕ
  | 0, _ => .error .diverge
  | fuel + 1, i =>
    if i < msg.length then do
      let b ← idx msg i
      if b = 0 then .ok i else recordLabels msg fuel (i + b.toNat + 1)
    else
      .ok i

/-- Where the name of the question, which starts at `i`, ends. -/
def questionEnd (msg : List UInt8) (i : ℕ) : Go ResolveErr ℕ := do
  let i ← questionName msg msg.length i
  if i < msg.length then do
    let b ← idx msg i
    .ok (if b = 0 then i + 1 else i)
  else
    .ok i

/-- Where the name of the record at `i` ends. -/
def recordName (msg : List UInt8) (i : ℕ) : Go ResolveErr ℕ := do
  let b ← idx msg i
  if b &&& 0xC0 = 0xC0 then
    .ok (i + 2)
  else do
    let i ← recordLabels msg msg.length i
    .ok (i + 1)

/-- The loop over `n` records from `i` on. -/
def answerLoop (msg : List UInt8) : ℕ → ℕ → Go ResolveErr (List UInt8 × ℕ)
  | 0, _ => .error (.fail .hostUnknown)
  | n + 1, i =>
    if i + 12 ≤ msg.length then do
      let i ← recordName msg i
      if msg.length < i + 10 then
        .error (.fail .hostUnknown)
      else do
        let typ ← beAt 2 msg i
        let ttl ← beAt 4 msg (i + 4)
        let rdlen ← beAt 2 msg (i + 8)
        if msg.length < i + 10 + rdlen then
          .error (.fail .hostUnknown)
        else if typ = 1 ∧ rdlen = 4 then do
          let a4 ← slice msg ↑(i + 10) ↑(i + 14)
          .ok (a4, ttl * second)
        else
          answerLoop msg n (i + 10 + rdlen)
    else
      .error (.fail .hostUnknown)

/-- `parseDNSAnswer`: the address and how long it may be kept. -/
def parseDNSAnswer (msg : List UInt8) : Go ResolveErr (List UInt8 × ℕ) :=
  if msg.length < 12 then
    .error (.fail .hostUnknown)
  else do
    let ancount ← beAt 2 msg 6
    if ancount = 0 then
      .error (.fail .hostUnknown)
    else do
      let i ← questionEnd msg 12
      answerLoop msg ancount (i + 4)

/-! ### No index is out of range -/

variable {fuel i : ℕ} {msg : List UInt8}

theorem safe_questionName (msg : List UInt8) (hfuel : msg.length - i < fuel) :
  Safe (questionName msg fuel i) (fun _ => True)
  := by
  induction fuel generalizing i with
  | zero => omega
  | succ fuel ih =>
    rw [questionName]
    split
    · rename_i hi
      apply (Safe.idx hi).bind
      intro b _
      split
      · trivial
      split
      · trivial
      · apply ih
        omega
    · trivial

theorem safe_questionEnd (hi : msg.length - i < msg.length) :
  Safe (questionEnd msg i) (fun _ => True)
  := by
  apply (safe_questionName msg hi).bind
  intro i' _
  split
  · rename_i hi'
    apply (Safe.idx hi').bind
    intro b _
    trivial
  · trivial

theorem safe_recordLabels (msg : List UInt8) (hfuel : msg.length - i < fuel) :
  Safe (recordLabels msg fuel i) (fun _ => True)
  := by
  induction fuel generalizing i with
  | zero => omega
  | succ fuel ih =>
    rw [recordLabels]
    split
    · rename_i hi
      apply (Safe.idx hi).bind
      intro b _
      split
      · trivial
      · apply ih
        omega
    · trivial

theorem safe_recordName (hpos : 0 < i) (hi : i < msg.length) :
  Safe (recordName msg i) (fun i' => 0 < i')
  := by
  apply (Safe.idx hi).bind
  intro b _
  split
  · exact Nat.succ_pos _
  apply (safe_recordLabels msg (by omega)).bind
  intro i' _
  exact Nat.succ_pos _

theorem safe_beAt {w : ℕ} (h : i + w ≤ msg.length) :
  Safe (beAt w msg i : Go ResolveErr ℕ) (fun _ => True)
  := by
  rw [beAt_of_le h]
  trivial

theorem safe_answerLoop (msg : List UInt8) (n : ℕ) (hpos : 0 < i) :
  Safe (answerLoop msg n i) (fun _ => True)
  := by
  induction n generalizing i with
  | zero => trivial
  | succ n ih =>
    rw [answerLoop]
    split
    · apply (safe_recordName hpos (by omega)).bind
      intro i' hi'
      split
      · trivial
      apply (safe_beAt (by omega)).bind
      intro typ _
      apply (safe_beAt (by omega)).bind
      intro ttl _
      apply (safe_beAt (by omega)).bind
      intro rdlen _
      split
      · trivial
      split
      · rw [slice_eq_ok (by omega) (by omega)]
        trivial
      · apply ih
        omega
    · trivial

theorem safe_parseDNSAnswer (msg : List UInt8) :
  Safe (parseDNSAnswer msg) (fun _ => True)
  := by
  rw [parseDNSAnswer]
  split
  · trivial
  apply (safe_beAt (by omega)).bind
  intro ancount _
  split
  · trivial
  apply (safe_questionEnd (by omega)).bind
  intro i _
  exact safe_answerLoop msg ancount (by omega)

/-! ### Responses -/

/-- A label. -/
structure Label where
  bytes : List UInt8
  pos : 0 < bytes.length
  le : bytes.length ≤ 63

/-- A name as it is written: labels, and the pointer they end in, or an empty label. -/
structure WireName where
  labels : List Label
  pointer : Option (Fin (2 ^ 14))

structure Question where
  name : WireName
  qtype : UInt16
  qclass : UInt16

/-- A resource record.  The data of an address record is an address. -/
structure Record where
  owner : WireName
  type : UInt16
  cls : UInt16
  ttl : UInt32
  rdata : List UInt8
  rdata_lt : rdata.length < 2 ^ 16
  address : type = 1 → rdata.length = 4

/-- A response: what its header says apart from the counts, and its sections. -/
structure Response where
  id : UInt16
  flags : UInt16
  questions : List Question
  answers : List Record
  authority : List Record
  additional : List Record
  answers_lt : answers.length < 2 ^ 16

def Label.encode (l : Label) : List UInt8 := UInt8.ofNat l.bytes.length :: l.bytes

def WireName.encode (name : WireName) : List UInt8 :=
  name.labels.flatMap Label.encode ++ match name.pointer with
    | none => [0]
    | some p => beBytes 2 (0xC000 + p)

def Question.encode (q : Question) : List UInt8 :=
  q.name.encode ++ (beBytes 2 q.qtype.toNat ++ beBytes 2 q.qclass.toNat)

/-- What stands in a record between its name and its data. -/
def Record.fixed (r : Record) : List UInt8 :=
  beBytes 2 r.type.toNat ++ (beBytes 2 r.cls.toNat ++ (beBytes 4 r.ttl.toNat
    ++ beBytes 2 r.rdata.length))

def Record.encode (r : Record) : List UInt8 :=
  r.owner.encode ++ (r.fixed ++ r.rdata)

def Response.header (r : Response) : List UInt8 :=
  beBytes 2 r.id.toNat ++ (beBytes 2 r.flags.toNat ++ (beBytes 2 r.questions.length
    ++ (beBytes 2 r.answers.length ++ (beBytes 2 r.authority.length
      ++ beBytes 2 r.additional.length))))

/-- The sections after the questions. -/
def Response.records (r : Response) : List UInt8 :=
  r.answers.flatMap Record.encode
    ++ (r.authority.flatMap Record.encode ++ r.additional.flatMap Record.encode)

def Response.encode (r : Response) : List UInt8 :=
  r.header ++ (r.questions.flatMap Question.encode ++ r.records)

/-- The name is written as labels or as a pointer, not as labels up to a pointer. -/
def WireName.Plain (name : WireName) : Prop := name.labels = [] ∨ name.pointer = none

/-- The owners of the records up to the first address are written so. -/
def ReadsPlain : List Record → Prop
  | [] => True
  | a :: answers => a.owner.Plain ∧ (a.type = 1 ∨ ReadsPlain answers)

/-- What a resolver is to return for the records of an answer: the first address and how long it
may be kept. -/
def firstAddress (answers : List Record) : Go ResolveErr (List UInt8 × ℕ) :=
  match answers.find? (fun a => a.type == 1) with
  | some a => .ok (a.rdata, a.ttl.toNat * second)
  | none => .error (.fail .hostUnknown)

/-! ### Reading a response -/

variable {answers : List Record} {labels : List Label}

theorem Label.encode_eq (l : Label) :
  ∃ b : UInt8, l.encode = b :: l.bytes ∧ b ≠ 0 ∧ b &&& 0xC0 ≠ 0xC0
    ∧ b.toNat = l.bytes.length
  := by
  have hpos := l.pos
  have hle := l.le
  have hsmall : ∀ n < 64, 0 < n → UInt8.ofNat n ≠ 0 ∧ UInt8.ofNat n &&& 0xC0 ≠ 0xC0
      ∧ (UInt8.ofNat n).toNat = n := by decide
  exact ⟨_, rfl, hsmall l.bytes.length (by omega) hpos⟩

theorem getElem?_length_append (pre : List UInt8) (b : UInt8) (rest : List UInt8) :
  (pre ++ b :: rest)[pre.length]? = some b
  := by
  rw [getElem?_append_right le_rfl, Nat.sub_self, getElem?_cons_zero]

/-- The loop passes over labels. -/
theorem recordLabels_append (fuel : ℕ) (pre post : List UInt8) :
  recordLabels (pre ++ (labels.flatMap Label.encode ++ post)) (fuel + labels.length) pre.length
    = recordLabels (pre ++ (labels.flatMap Label.encode ++ post)) fuel
      (pre.length + (labels.flatMap Label.encode).length)
  := by
  induction labels generalizing pre with
  | nil => rfl
  | cons l labels ih =>
    obtain ⟨b, hb, hne, -, hlen⟩ := l.encode_eq
    have hrest := ih (pre ++ l.encode)
    have hidx := getElem?_length_append pre b (l.bytes ++ (labels.flatMap Label.encode ++ post))
    rw [hb] at hrest
    simp only [append_assoc, cons_append] at hrest
    rw [flatMap_cons, hb, append_assoc, cons_append, length_cons, ← Nat.add_assoc, recordLabels,
      if_pos (by simp), idx_eq_ok hidx, ok_bind, if_neg hne, hlen]
    simp only [length_append, length_cons] at hrest ⊢
    rw [Nat.add_assoc, hrest]
    congr 1
    omega

/-- The loop over labels stops at the empty one. -/
theorem recordLabels_eq (hfuel : labels.length < fuel) (pre post : List UInt8) :
  recordLabels (pre ++ (labels.flatMap Label.encode ++ 0 :: post)) fuel pre.length
    = .ok (pre.length + (labels.flatMap Label.encode).length)
  := by
  obtain ⟨k, rfl⟩ : ∃ k, fuel = k + 1 + labels.length := ⟨fuel - labels.length - 1, by omega⟩
  have hidx := getElem?_length_append (pre ++ labels.flatMap Label.encode) 0 post
  rw [append_assoc, length_append] at hidx
  rw [recordLabels_append, recordLabels, if_pos (by simp only [length_append, length_cons]; omega),
    idx_eq_ok hidx, ok_bind, if_pos rfl]

/-- The loop over labels takes the first byte of a pointer for a length, here one that leads out
of the message. -/
theorem recordLabels_pointer (hfuel : labels.length + 1 < fuel) (pre : List UInt8) {b : UInt8}
    {post : List UInt8} (hne : b ≠ 0) (hb : post.length ≤ b.toNat) :
  recordLabels (pre ++ (labels.flatMap Label.encode ++ b :: post)) fuel pre.length
    = .ok (pre.length + (labels.flatMap Label.encode).length + b.toNat + 1)
  := by
  obtain ⟨k, rfl⟩ : ∃ k, fuel = k + 2 + labels.length := ⟨fuel - labels.length - 2, by omega⟩
  have hidx := getElem?_length_append (pre ++ labels.flatMap Label.encode) b post
  rw [append_assoc, length_append] at hidx
  rw [recordLabels_append, recordLabels, if_pos (by simp only [length_append, length_cons]; omega),
    idx_eq_ok hidx, ok_bind, if_neg hne, recordLabels,
    if_neg (by simp only [length_append, length_cons]; omega)]

/-- The loop over the name of the question stops at the empty label, or after a pointer. -/
theorem questionName_eq (hfuel : labels.length < fuel) (pre post : List UInt8) {b : UInt8}
    (hb : b = 0 ∨ b &&& 0xC0 = 0xC0) :
  questionName (pre ++ (labels.flatMap Label.encode ++ b :: post)) fuel pre.length
    = .ok (pre.length + (labels.flatMap Label.encode).length + if b = 0 then 0 else 2)
  := by
  induction labels generalizing fuel pre with
  | nil =>
    obtain ⟨fuel, rfl⟩ := Nat.exists_eq_succ_of_ne_zero (by omega : fuel ≠ 0)
    rw [questionName, if_pos (by simp), flatMap_nil, nil_append,
      idx_eq_ok (getElem?_length_append pre b post), ok_bind]
    by_cases hzero : b = 0
    · rw [if_pos hzero, if_pos hzero]
      rfl
    · rw [if_neg hzero, if_pos (hb.resolve_left hzero), if_neg hzero]
      rfl
  | cons l labels ih =>
    obtain ⟨fuel, rfl⟩ := Nat.exists_eq_succ_of_ne_zero (by omega : fuel ≠ 0)
    obtain ⟨c, hc, hne, hlabel, hlen⟩ := l.encode_eq
    have hrest := ih (Nat.lt_of_succ_lt_succ hfuel) (pre ++ l.encode)
    have hidx := getElem?_length_append pre c
      (l.bytes ++ (labels.flatMap Label.encode ++ b :: post))
    rw [hc] at hrest
    simp only [append_assoc, cons_append] at hrest
    rw [flatMap_cons, hc, append_assoc, cons_append, questionName,
      if_pos (by simp), idx_eq_ok hidx, ok_bind, if_neg hne, if_neg hlabel, hlen]
    simp only [length_append, length_cons] at hrest ⊢
    rw [Nat.add_assoc, hrest]
    congr 1
    omega

/-- The first byte of a pointer. -/
theorem beBytes_pointer (p : Fin (2 ^ 14)) :
  ∃ b c : UInt8, beBytes 2 (0xC000 + p) = [b, c] ∧ b ≠ 0 ∧ b &&& 0xC0 = 0xC0 ∧ 192 ≤ b.toNat
  := by
  refine ⟨_, _, rfl, ?_⟩
  have hbyte : ∀ n < 64, UInt8.ofNat (192 + n) ≠ 0 ∧ UInt8.ofNat (192 + n) &&& 0xC0 = 0xC0
      ∧ 192 ≤ (UInt8.ofNat (192 + n)).toNat := by
    decide
  have hquot : (0xC000 + p.val) / 256 = 192 + p.val / 256 := by omega
  rw [hquot]
  exact hbyte (p.val / 256) (by omega)

theorem length_labels_le (labels : List Label) :
  labels.length ≤ (labels.flatMap Label.encode).length
  := by
  induction labels with
  | nil => exact le_rfl
  | cons l labels ih =>
    simp only [length_cons, flatMap_cons, length_append, Label.encode]
    omega

/-- Labels up to the empty one do not look like a pointer. -/
theorem labels_head (labels : List Label) (post : List UInt8) :
  ∃ (b : UInt8) (rest : List UInt8), labels.flatMap Label.encode ++ 0 :: post = b :: rest
    ∧ b &&& 0xC0 ≠ 0xC0
  := by
  cases labels with
  | nil => exact ⟨0, post, rfl, by decide⟩
  | cons l labels =>
    obtain ⟨b, hb, -, hlabel, -⟩ := l.encode_eq
    rw [flatMap_cons, hb]
    exact ⟨b, _, rfl, hlabel⟩

/-- A name that is not written as labels up to a pointer is passed over. -/
theorem recordName_encode {name : WireName} (hplain : name.Plain) (pre post : List UInt8) :
  recordName (pre ++ (name.encode ++ post)) pre.length = .ok (pre.length + name.encode.length)
  := by
  obtain ⟨labels, pointer⟩ := name
  cases pointer with
  | some p =>
    obtain rfl : labels = [] := by simpa [WireName.Plain] using hplain
    obtain ⟨b, c, hbytes, -, hb, -⟩ := beBytes_pointer p
    simp only [WireName.encode, flatMap_nil, nil_append, hbytes, cons_append]
    rw [recordName, idx_eq_ok (getElem?_length_append pre b _), ok_bind, if_pos hb]
    rfl
  | none =>
    obtain ⟨b, rest, hhead, hb⟩ := labels_head labels post
    have hfuel : labels.length < (pre ++ (labels.flatMap Label.encode ++ 0 :: post)).length := by
      have hcount := length_labels_le labels
      rw [length_append, length_append, length_cons]
      omega
    have hlabels := recordLabels_eq hfuel pre post
    have hidx := getElem?_length_append pre b rest
    rw [← hhead] at hidx
    simp only [WireName.encode, append_assoc, cons_append, nil_append]
    rw [recordName, idx_eq_ok hidx, ok_bind, if_neg hb, hlabels, ok_bind, length_append,
      length_singleton, Nat.add_assoc]

/-- Labels up to a pointer, with at most 192 bytes after its first, lead out of the message. -/
theorem recordName_pointer {name : WireName} (hplain : ¬ name.Plain) (pre : List UInt8)
    {post : List UInt8} (hpost : (name.encode ++ post).length ≤ 192) :
  ∃ i, recordName (pre ++ (name.encode ++ post)) pre.length = .ok i
    ∧ (pre ++ (name.encode ++ post)).length < i
  := by
  obtain ⟨labels, pointer⟩ := name
  obtain ⟨hlabels, hpointer⟩ := not_or.mp hplain
  cases pointer with
  | none => exact absurd rfl hpointer
  | some p =>
    obtain ⟨b, c, hbytes, hne, -, hb⟩ := beBytes_pointer p
    have hcount := length_labels_le labels
    simp only [WireName.encode, hbytes, append_assoc, cons_append, nil_append, length_append,
      length_cons] at hpost ⊢
    have hlen : (pre ++ (labels.flatMap Label.encode ++ b :: c :: post)).length
        = pre.length + ((labels.flatMap Label.encode).length + (post.length + 2)) := by
      simp only [length_append, length_cons]
    have hloop : recordLabels (pre ++ (labels.flatMap Label.encode ++ b :: c :: post))
        (pre ++ (labels.flatMap Label.encode ++ b :: c :: post)).length pre.length = _ :=
      recordLabels_pointer (by omega) pre hne (by rw [length_cons]; omega)
    obtain ⟨l, labels', rfl⟩ := exists_cons_of_ne_nil hlabels
    obtain ⟨x, hx, -, hlabel, -⟩ := l.encode_eq
    have hidx := getElem?_length_append pre x
      (l.bytes ++ (labels'.flatMap Label.encode ++ b :: c :: post))
    rw [← cons_append, ← hx, ← append_assoc l.encode, ← flatMap_cons] at hidx
    refine ⟨pre.length + ((l :: labels').flatMap Label.encode).length + b.toNat + 1 + 1, ?_,
      by omega⟩
    rw [recordName, idx_eq_ok hidx, ok_bind, if_neg hlabel, hloop, ok_bind]

/-- The name of a question is passed over, unless the byte after a pointer is zero. -/
theorem questionEnd_encode {q : Question} (hq : q.name.pointer = none ∨ 256 ≤ q.qtype.toNat)
    (pre post : List UInt8) :
  questionEnd (pre ++ (q.encode ++ post)) pre.length
    = .ok (pre.length + q.name.encode.length)
  := by
  obtain ⟨⟨labels, pointer⟩, qtype, qclass⟩ := q
  have hcount := length_labels_le labels
  cases pointer with
  | none =>
    have hmsg : pre ++ (Question.encode ⟨⟨labels, none⟩, qtype, qclass⟩ ++ post)
        = pre ++ (labels.flatMap Label.encode
          ++ 0 :: (beBytes 2 qtype.toNat ++ (beBytes 2 qclass.toNat ++ post))) := by
      simp [Question.encode, WireName.encode]
    rw [hmsg]
    generalize beBytes 2 qtype.toNat ++ (beBytes 2 qclass.toNat ++ post) = post
    have hfuel : labels.length < (pre ++ (labels.flatMap Label.encode ++ 0 :: post)).length := by
      rw [length_append, length_append, length_cons]
      omega
    have hidx := getElem?_length_append (pre ++ labels.flatMap Label.encode) 0 post
    rw [append_assoc, length_append] at hidx
    rw [questionEnd, questionName_eq hfuel pre post (.inl rfl), ok_bind, if_pos rfl, Nat.add_zero,
      if_pos (by simp only [length_append, length_cons]; omega), idx_eq_ok hidx, ok_bind,
      if_pos rfl, WireName.encode, length_append, length_singleton, Nat.add_assoc]
  | some p =>
    obtain ⟨b, c, hbytes, hne, hb, -⟩ := beBytes_pointer p
    have hqtype : 256 ≤ qtype.toNat := by simpa using hq
    obtain ⟨x, y, hxy, hx⟩ : ∃ x y : UInt8, beBytes 2 qtype.toNat = [x, y] ∧ x ≠ 0 := by
      have hlt := qtype.toNat_lt
      have hbyte : ∀ n < 256, 0 < n → UInt8.ofNat n ≠ 0 := by decide +kernel
      exact ⟨_, _, rfl, hbyte (qtype.toNat / 256) (by omega) (by omega)⟩
    have hmsg : pre ++ (Question.encode ⟨⟨labels, some p⟩, qtype, qclass⟩ ++ post)
        = pre ++ (labels.flatMap Label.encode
          ++ b :: ([c] ++ x :: ([y] ++ (beBytes 2 qclass.toNat ++ post)))) := by
      simp [Question.encode, WireName.encode, hbytes, hxy]
    rw [hmsg]
    generalize [y] ++ (beBytes 2 qclass.toNat ++ post) = post
    have hfuel : labels.length
        < (pre ++ (labels.flatMap Label.encode ++ b :: ([c] ++ x :: post))).length := by
      rw [length_append, length_append, length_cons]
      omega
    have hidx := getElem?_length_append (pre ++ (labels.flatMap Label.encode ++ [b, c])) x post
    simp only [append_assoc, cons_append, nil_append, length_append,
      length_cons, length_nil, Nat.zero_add] at hidx
    rw [questionEnd, questionName_eq hfuel pre _ (.inr hb), ok_bind, if_neg hne, Nat.add_assoc]
    rw [if_pos (by simp only [length_append, length_cons]; omega), cons_append, nil_append,
      idx_eq_ok hidx, ok_bind, if_neg hx, WireName.encode, length_append, length_beBytes]

/-- What a record says between its name and its data. -/
theorem beAt_fixed (r : Record) (pre post : List UInt8) :
  beAt 2 (pre ++ (r.fixed ++ post)) pre.length = (.ok r.type.toNat : Go ResolveErr ℕ)
    ∧ beAt 4 (pre ++ (r.fixed ++ post)) (pre.length + 4) = (.ok r.ttl.toNat : Go ResolveErr ℕ)
    ∧ beAt 2 (pre ++ (r.fixed ++ post)) (pre.length + 8)
      = (.ok r.rdata.length : Go ResolveErr ℕ)
  := by
  have htype := beAt_append (ε := ResolveErr) (w := 2) r.type.toNat_lt pre
    (beBytes 2 r.cls.toNat ++ (beBytes 4 r.ttl.toNat ++ (beBytes 2 r.rdata.length ++ post)))
  have httl := beAt_append (ε := ResolveErr) (w := 4) r.ttl.toNat_lt
    (pre ++ (beBytes 2 r.type.toNat ++ beBytes 2 r.cls.toNat)) (beBytes 2 r.rdata.length ++ post)
  have hrdlen := beAt_append (ε := ResolveErr) (w := 2) r.rdata_lt
    (pre ++ (beBytes 2 r.type.toNat ++ (beBytes 2 r.cls.toNat ++ beBytes 4 r.ttl.toNat))) post
  simp only [length_append, length_beBytes, append_assoc] at htype httl hrdlen
  exact ⟨htype, httl, hrdlen⟩

theorem Record.length_fixed (r : Record) :
  r.fixed.length = 10
  := by
  simp [Record.fixed]

theorem Record.length_encode (r : Record) :
  r.encode.length = r.owner.encode.length + (10 + r.rdata.length)
  := by
  rw [Record.encode, length_append, length_append, r.length_fixed]

theorem toNat_eq_one_iff (n : UInt16) :
  n.toNat = 1 ↔ n = 1
  := by
  rw [← UInt16.toNat_inj]
  rfl

/-- A record that does not leave room for an address is not followed by one. -/
theorem firstAddress_of_short {a : Record}
    (hshort : a.encode.length + (answers.flatMap Record.encode).length < 12) :
  firstAddress (a :: answers) = .error (.fail .hostUnknown)
  := by
  have hencode := a.length_encode
  have htype : a.type ≠ 1 := by
    intro h
    have haddress := a.address h
    omega
  cases answers with
  | nil => simp [firstAddress, htype]
  | cons b answers =>
    have hencode' := b.length_encode
    rw [flatMap_cons, length_append] at hshort
    omega

/-- What the loop does with a record whose name it passes over. -/
theorem answerLoop_cons {a : Record} (hplain : a.owner.Plain) (n : ℕ) (pre rest : List UInt8)
    (hroom : 12 ≤ a.encode.length + rest.length) :
  answerLoop (pre ++ (a.encode ++ rest)) (n + 1) pre.length
    = if a.type = 1 then .ok (a.rdata, a.ttl.toNat * second)
      else answerLoop (pre ++ (a.encode ++ rest)) n (pre ++ a.encode).length
  := by
  have hname := recordName_encode hplain pre (a.fixed ++ (a.rdata ++ rest))
  obtain ⟨htype, httl, hrdlen⟩ := beAt_fixed a (pre ++ a.owner.encode) (a.rdata ++ rest)
  have hdata := slice_append (ε := ResolveErr) (pre ++ (a.owner.encode ++ a.fixed)) a.rdata rest
  rw [a.length_encode] at hroom
  simp only [append_assoc, length_append, a.length_fixed, Record.encode]
    at htype httl hrdlen hdata ⊢
  generalize hm : pre ++ (a.owner.encode ++ (a.fixed ++ (a.rdata ++ rest))) = msg at *
  have hlen : msg.length
      = pre.length + (a.owner.encode.length + (10 + (a.rdata.length + rest.length))) := by
    rw [← hm]
    simp only [length_append, a.length_fixed]
  rw [answerLoop, if_pos (by omega), hname, ok_bind, if_neg (by omega), htype, ok_bind, httl,
    ok_bind, hrdlen, ok_bind, if_neg (by omega)]
  by_cases haddress : a.type = 1
  · have hfour := a.address haddress
    rw [if_pos ⟨(toNat_eq_one_iff _).mpr haddress, hfour⟩, if_pos haddress]
    rw [hfour] at hdata
    simp only [Nat.add_assoc] at hdata ⊢
    rw [hdata, ok_bind]
  · rw [if_neg (fun h => haddress ((toNat_eq_one_iff _).mp h.1)), if_neg haddress]
    simp only [Nat.add_assoc]

/-- The loop over the records finds the first address. -/
theorem answerLoop_encode (hplain : ReadsPlain answers) (pre post : List UInt8) :
  answerLoop (pre ++ (answers.flatMap Record.encode ++ post)) answers.length pre.length
    = firstAddress answers
  := by
  induction answers generalizing pre with
  | nil => rfl
  | cons a answers ih =>
    rw [flatMap_cons, append_assoc, length_cons]
    by_cases hroom : 12 ≤ a.encode.length + (answers.flatMap Record.encode ++ post).length
    · rw [answerLoop_cons hplain.1 _ _ _ hroom]
      split
      · rename_i haddress
        simp [firstAddress, haddress]
      · rename_i haddress
        have hrest := ih (hplain.2.resolve_left haddress) (pre ++ a.encode)
        rw [append_assoc] at hrest
        rw [hrest]
        simp [firstAddress, haddress]
    · rw [answerLoop, if_neg, firstAddress_of_short]
      · rw [length_append] at hroom
        omega
      · rw [length_append, length_append]
        omega

/-- A pointer that is taken for a length ends the search, if at most 192 bytes follow. -/
theorem answerLoop_pointer (hplain : ¬ ReadsPlain answers) (pre : List UInt8) {post : List UInt8}
    (hshort : (answers.flatMap Record.encode ++ post).length ≤ 192) :
  answerLoop (pre ++ (answers.flatMap Record.encode ++ post)) answers.length pre.length
    = .error (.fail .hostUnknown)
  := by
  induction answers generalizing pre with
  | nil => exact absurd trivial hplain
  | cons a answers ih =>
    rw [flatMap_cons, append_assoc] at hshort
    rw [flatMap_cons, append_assoc, length_cons]
    by_cases hroom : 12 ≤ a.encode.length + (answers.flatMap Record.encode ++ post).length
    · by_cases howner : a.owner.Plain
      · obtain ⟨haddress, hrest⟩ := not_or.mp fun h => hplain ⟨howner, h⟩
        have hnext := ih hrest (pre ++ a.encode) (by rw [length_append] at hshort; omega)
        rw [append_assoc] at hnext
        rw [answerLoop_cons howner _ _ _ hroom, if_neg haddress, hnext]
      · simp only [Record.encode, append_assoc] at hshort ⊢
        obtain ⟨i, hname, hi⟩ := recordName_pointer howner pre hshort
        rw [Record.encode, length_append, length_append, a.length_fixed] at hroom
        rw [answerLoop, if_pos, hname, ok_bind, if_pos (by omega)]
        simp only [length_append, a.length_fixed] at hroom ⊢
        omega
    · rw [answerLoop, if_neg]
      rw [length_append, length_append]
      omega

/-! ### Responses with one question -/

/-- The question of a response that `parseDNSAnswer` passes over. -/
def Question.Plain (q : Question) : Prop := q.name.pointer = none ∨ 256 ≤ q.qtype.toNat

theorem beAt_ancount (r : Response) (post : List UInt8) :
  beAt 2 (r.header ++ post) 6 = (.ok r.answers.length : Go ResolveErr ℕ)
  := by
  have hcount := beAt_append (ε := ResolveErr) (w := 2) r.answers_lt
    (beBytes 2 r.id.toNat ++ (beBytes 2 r.flags.toNat ++ beBytes 2 r.questions.length))
    (beBytes 2 r.authority.length ++ (beBytes 2 r.additional.length ++ post))
  exact hcount

theorem firstAddress_eq_error_iff :
  firstAddress answers = .error (.fail .hostUnknown) ↔ ∀ a ∈ answers, a.type ≠ 1
  := by
  unfold firstAddress
  cases hfind : answers.find? (fun a => a.type == 1) with
  | some a =>
    have htype : a.type = 1 := by simpa using find?_some hfind
    simpa using ⟨a, mem_of_find?_eq_some hfind, htype⟩
  | none => simpa using find?_eq_none.mp hfind

/-- `parseDNSAnswer` never indexes out of range.  It is right about a response without answers, and
about one with one question if no name that it reads is written as labels up to a pointer.  If at
most 192 bytes follow the question, it is right in no other case, apart from there being no
address. -/
theorem parseDNSAnswer_encode (msg : List UInt8) (r : Response) :
  Safe (parseDNSAnswer msg) (fun _ => True)
    ∧ (r.answers = [] → parseDNSAnswer r.encode = firstAddress r.answers)
    ∧ ∀ q, r.questions = [q] → q.Plain →
      (ReadsPlain r.answers → parseDNSAnswer r.encode = firstAddress r.answers)
      ∧ (r.records.length ≤ 192 →
        (parseDNSAnswer r.encode = firstAddress r.answers
          ↔ ReadsPlain r.answers ∨ ∀ a ∈ r.answers, a.type ≠ 1))
  := by
  have hheader : r.header.length = 12 := by simp [Response.header]
  have hnone : r.answers = [] → parseDNSAnswer r.encode = firstAddress r.answers := by
    intro h
    rw [parseDNSAnswer, if_neg (by rw [Response.encode, length_append]; omega), Response.encode,
      beAt_ancount, ok_bind, h, length_nil, if_pos rfl]
    rfl
  refine ⟨safe_parseDNSAnswer msg, hnone, fun q hquestion hq => ?_⟩
  have hloop : parseDNSAnswer r.encode
      = answerLoop ((r.header ++ q.encode) ++ r.records) r.answers.length
        (r.header ++ q.encode).length := by
    have hend := questionEnd_encode hq r.header r.records
    have hqlen : q.encode.length = q.name.encode.length + 4 := by simp [Question.encode]
    rw [hheader] at hend
    rw [Response.encode, hquestion, flatMap_singleton, parseDNSAnswer,
      if_neg (by rw [length_append]; omega), beAt_ancount, ok_bind, append_assoc, length_append,
      hheader, hqlen, ← Nat.add_assoc]
    by_cases hcount : r.answers.length = 0
    · rw [if_pos hcount, hcount]
      rfl
    · rw [if_neg hcount, hend, ok_bind]
  have hreads : ReadsPlain r.answers → parseDNSAnswer r.encode = firstAddress r.answers := by
    intro hplain
    rw [hloop]
    exact answerLoop_encode hplain _ _
  refine ⟨hreads, fun hshort => ?_⟩
  by_cases hplain : ReadsPlain r.answers
  · simp [hplain, hreads hplain]
  · have hlost := answerLoop_pointer hplain (r.header ++ q.encode) hshort
    rw [hloop, Response.records, hlost, eq_comm, firstAddress_eq_error_iff]
    simp [hplain]

/-- An answer to a question for `a.b` that gives its canonical name, and the address of that. -/
def aliasResponse : Response :=
  let a : Label := ⟨[97], by decide, by decide⟩
  let b : Label := ⟨[98], by decide, by decide⟩
  { id := 0x1234, flags := 0x8180
    questions := [⟨⟨[a, b], none⟩, 1, 1⟩]
    answers :=
      [⟨⟨[], some 12⟩, 5, 1, 60, [1, 98, 0], by decide, by decide⟩,
        ⟨⟨[b], none⟩, 1, 1, 30, [192, 0, 2, 1], by decide, by decide⟩]
    authority := [], additional := [], answers_lt := by decide }

/-- An answer that writes its name `a.b` as a label and a pointer to the `b` of the question. -/
def suffixResponse : Response :=
  let a : Label := ⟨[97], by decide, by decide⟩
  let b : Label := ⟨[98], by decide, by decide⟩
  { id := 0x1234, flags := 0x8180
    questions := [⟨⟨[a, b], none⟩, 1, 1⟩]
    answers := [⟨⟨[a], some 14⟩, 1, 1, 60, [192, 0, 2, 1], by decide, by decide⟩]
    authority := [], additional := [], answers_lt := by decide }

/-- The alias is followed, and the answer with the label and the pointer is not understood. -/
theorem parseDNSAnswer_alias :
  parseDNSAnswer aliasResponse.encode = .ok ([192, 0, 2, 1], 30 * second)
    ∧ parseDNSAnswer suffixResponse.encode ≠ firstAddress suffixResponse.answers
  := by
  have hshort := ((parseDNSAnswer_encode [] suffixResponse).2.2 _ rfl (.inl rfl)).2 (by decide)
  refine ⟨((parseDNSAnswer_encode [] aliasResponse).2.2 _ rfl (.inl rfl)).1
    ⟨.inl rfl, .inr ⟨.inr rfl, .inl rfl⟩⟩, fun h => ?_⟩
  rcases hshort.mp h with ⟨howner | howner, -⟩ | hnone
  · cases howner
  · cases howner
  · exact hnone _ mem_cons_self rfl

/-- The pointer is taken for the length of a label, and the address is not found. -/
theorem parseDNSAnswer_suffix :
  firstAddress suffixResponse.answers = .ok ([192, 0, 2, 1], 60 * second)
    ∧ parseDNSAnswer suffixResponse.encode = .error (.fail .hostUnknown)
  := ⟨rfl, rfl⟩

end Netdev
