/-
  DNS messages (kernel/src/net/dns.rs): how a query is encoded and how a response
  is parsed.

  A hostname is the bytes of its text.  A packet is far shorter than a `usize` can
  count, so positions are plain numbers.
-/

import OpenOS.Base.Comp
import OpenOS.Net.Wire

namespace OpenOS.Net.Dns

open Base List
open BitVec (ofNat toNat)

def dot : Byte := 0x2E

/-! ## Queries -/

structure DnsHeader where
  id : BitVec 16
  flags : BitVec 16
  qdcount : BitVec 16
  ancount : BitVec 16

structure DnsAnswer where
  name : List Byte
  rtype : BitVec 16
  rclass : BitVec 16
  ttl : BitVec 32
  rdata : List Byte

/-- `None` is the error that `?` passes on. -/
def orNone {α : Type} : Option α → Except (Stop Unit) α
  | some a => .ok a
  | none => .error (.err ())

/-- `return None` unless the condition holds. -/
def check (c : Prop) [Decidable c] : Except (Stop Unit) Unit :=
  if c then .ok () else .error (.err ())

/-- `data[start..stop].to_vec()` -/
def slice (data : List Byte) (start stop : Nat) : Except (Stop Unit) (List Byte) :=
  if start ≤ stop ∧ stop ≤ data.length then .ok ((data.take stop).drop start) else .error .panic

def parseDnsHeader (data : List Byte) : Option DnsHeader :=
  if data.length < 12 then none
  else some ⟨readU16Be data 0, readU16Be data 2, readU16Be data 4, readU16Be data 6⟩

def skipDomainName (data : List Byte) (pos : Nat) : Option Nat :=
  if data.length ≤ pos then none
  else
    let len := byteAt data pos
    if len &&& 0xC0 = 0xC0 then some (pos + 2)
    else if len = 0 then some (pos + 1)
    else if data.length < pos + 1 + len.toNat then none
    else skipDomainName data (pos + 1 + len.toNat)
termination_by data.length - pos

def parseQuestions (data : List Byte) : Nat → Nat → Option Nat
  | 0, pos => some pos
  | n + 1, pos => do
    let pos ← skipDomainName data pos
    if data.length < pos + 4 then none else parseQuestions data n (pos + 4)

def parseAnswer (data : List Byte) (offset : Nat) : Except (Stop Unit) (DnsAnswer × Nat) := do
  let pos ← orNone (skipDomainName data offset)
  let name ← slice data offset pos
  check (pos + 10 ≤ data.length)
  let rdlength := (readU16Be data (pos + 8)).toNat
  check (pos + 10 + rdlength ≤ data.length)
  let rdata ← slice data (pos + 10) (pos + 10 + rdlength)
  .ok (⟨name, readU16Be data pos, readU16Be data (pos + 2), readU32Be data (pos + 4), rdata⟩,
    pos + 10 + rdlength)

def parseAnswers (data : List Byte) : Nat → Nat → Except (Stop Unit) (List DnsAnswer)
  | 0, _ => .ok []
  | n + 1, pos => do
    let (answer, pos) ← parseAnswer data pos
    let answers ← parseAnswers data n pos
    .ok (answer :: answers)

def findARecord (answers : List DnsAnswer) : Option (List Byte) :=
  (answers.find? fun a => a.rtype = 1 ∧ a.rclass = 1 ∧ a.rdata.length = 4).map (·.rdata)

/-- The checks of `parse_dns_response`: its own query is answered, without an error, in full,
    by at least one record. -/
def Accepted (h : DnsHeader) : Prop := h.id = 0xABCD ∧ h.flags &&& 0x8000 ≠ 0 ∧
  h.flags &&& 0x000F = 0 ∧ h.flags &&& 0x0200 = 0 ∧ h.ancount ≠ 0
deriving Decidable

def parseDnsResponse (data : List Byte) : Except (Stop Unit) (List Byte) := do
  let header ← orNone (parseDnsHeader data)
  check (Accepted header)
  let start ← orNone (parseQuestions data header.qdcount.toNat 12)
  let answers ← parseAnswers data header.ancount.toNat start
  orNone (findARecord answers)

/-! ## The names of a query -/

/-- A dot-separated list of labels of 1 to 63 bytes. -/
def WellFormed (name : List Byte) : Prop :=
  ∃ labels ≠ [], (∀ l ∈ labels, dot ∉ l ∧ l ≠ [] ∧ l.length ≤ 63) ∧ name = [dot].intercalate labels

/-- The name at `pos` ends before the second position. -/
inductive NameEnd (data : List Byte) : Nat → Nat → Prop
  | pointer (h : data[pos]? = some b) (hb : b &&& 0xC0 = 0xC0) : NameEnd data pos (pos + 2)
  | root (h : data[pos]? = some 0) : NameEnd data pos (pos + 1)
  | label (h : data[pos]? = some b) (hb : b &&& 0xC0 ≠ 0xC0) (hb' : b ≠ 0)
      (hrest : NameEnd data (pos + 1 + b.toNat) stop) : NameEnd data pos stop

/-- The question at `pos`: its name, a type and a class. -/
def QuestionEnd (data : List Byte) (pos stop : Nat) : Prop :=
  ∃ q, NameEnd data pos q ∧ stop = q + 4 ∧ stop ≤ data.length

/-- The record at `pos`: its name, ten bytes that give the length of its data, and these. -/
def RecordEnd (data : List Byte) (pos stop : Nat) : Prop :=
  ∃ q, NameEnd data pos q ∧ stop = q + 10 + (readU16Be data (q + 8)).toNat ∧
    q + 10 ≤ data.length ∧ stop ≤ data.length

/-- From `pos` to `stop` in `n` steps. -/
def After (R : Nat → Nat → Prop) : Nat → Nat → Nat → Prop
  | 0, pos, stop => pos = stop
  | n + 1, pos, stop => ∃ q, R pos q ∧ After R n q stop

/-- A name that the parser comes to ends in a pointer of which the packet has one byte only. -/
def CutOff (data : List Byte) : Prop :=
  ∃ h start, parseDnsHeader data = some h ∧ Accepted h ∧
    After (QuestionEnd data) h.qdcount.toNat 12 start ∧
    ∃ n < h.ancount.toNat, ∃ pos, After (RecordEnd data) n start pos ∧
      NameEnd data pos (data.length + 1)

theorem lt_of_skip (h : skipDomainName data pos = some stop) :
    pos < data.length ∧ pos < stop ∧ stop ≤ data.length + 1 := by
  fun_induction skipDomainName data pos <;> grind

theorem nameEnd_iff : NameEnd data pos stop ↔ skipDomainName data pos = some stop := by
  constructor
  · intro h
    induction h with
    | pointer | root =>
      rw [skipDomainName]
      grind [byteAt]
    | label h hb hb' hrest ih =>
      have hlt := lt_of_skip ih
      rw [skipDomainName]
      grind [byteAt]
  · fun_induction skipDomainName data pos <;> grind [byteAt, NameEnd]

theorem parseQuestions_iff :
    parseQuestions data n pos = some stop ↔ After (QuestionEnd data) n pos stop := by
  induction n generalizing pos with
  | zero => simp [parseQuestions, After]
  | succ n ih =>
    cases hskip : skipDomainName data pos <;>
      simp [parseQuestions, After, QuestionEnd, nameEnd_iff, hskip, ← ih]

@[simp] theorem bind_panic {f : α → Except (Stop Unit) β} :
    x >>= f = .error .panic ↔ x = .error .panic ∨ ∃ a, x = .ok a ∧ f a = .error .panic := by
  cases x <;> simp [bind, Except.bind]

@[simp] theorem bind_ok {f : α → Except (Stop Unit) β} :
    x >>= f = .ok b ↔ ∃ a, x = .ok a ∧ f a = .ok b := by
  cases x <;> simp [bind, Except.bind]

@[simp] theorem orNone_ok : orNone o = .ok a ↔ o = some a := by
  cases o <;> simp [orNone]

@[simp] theorem orNone_ne_panic : orNone o ≠ .error .panic := by
  cases o <;> simp [orNone]

@[simp] theorem check_ok [Decidable c] : check c = .ok u ↔ c := by
  simp [check]

@[simp] theorem check_ne_panic [Decidable c] : check c ≠ .error .panic := by
  rw [check]
  split_ifs <;> nofun

@[simp] theorem slice_ok : slice data start stop = .ok l ↔
    (start ≤ stop ∧ stop ≤ data.length) ∧ l = (data.take stop).drop start := by
  rw [slice]
  split_ifs <;> simp_all [eq_comm]

@[simp] theorem slice_panic : slice data start stop = .error .panic ↔
    ¬ (start ≤ stop ∧ stop ≤ data.length) := by
  rw [slice]
  split_ifs <;> simp_all

theorem parseAnswer_panic :
    parseAnswer data pos = .error .panic ↔ NameEnd data pos (data.length + 1) := by
  simp only [nameEnd_iff, parseAnswer, bind_panic, orNone_ok, orNone_ne_panic, slice_panic, slice_ok,
    check_ok, check_ne_panic]
  cases hskip : skipDomainName data pos with
  | none => simp
  | some q =>
    have hlt := lt_of_skip hskip
    simp
    omega

theorem parseAnswer_ok : (∃ a, parseAnswer data pos = .ok (a, stop)) ↔ RecordEnd data pos stop := by
  simp only [RecordEnd, nameEnd_iff, parseAnswer, bind_ok, orNone_ok, slice_ok, check_ok]
  cases hskip : skipDomainName data pos with
  | none => simp
  | some q =>
    have hlt := lt_of_skip hskip
    simp
    omega

theorem parseAnswers_panic : parseAnswers data n pos = .error .panic ↔
    ∃ k < n, ∃ q, After (RecordEnd data) k pos q ∧ NameEnd data q (data.length + 1) := by
  induction n generalizing pos with
  | zero => simp [parseAnswers]
  | succ n ih =>
    rw [parseAnswers, Nat.exists_lt_succ_left]
    simp only [After, ← parseAnswer_ok, bind_panic, parseAnswer_panic, ih, reduceCtorEq, and_false,
      exists_false, or_false, exists_eq_left']
    refine or_congr_right ⟨?_, ?_⟩
    · rintro ⟨⟨a, q⟩, hp, k, hk, q', h, hcut⟩
      exact ⟨k, hk, q', ⟨q, ⟨a, hp⟩, h⟩, hcut⟩
    · rintro ⟨k, hk, q', ⟨q, ⟨a, hp⟩, h⟩, hcut⟩
      exact ⟨(a, q), hp, k, hk, q', h, hcut⟩

/-- The parser panics on no other packets. -/
theorem parseDnsResponse_total_iff (data : List Byte) :
    parseDnsResponse data ≠ .error .panic ↔ ¬ CutOff data := by
  simp [parseDnsResponse, CutOff, ← parseQuestions_iff, ← parseAnswers_panic]

/-- A packet that ends in the first byte of its answer. -/
theorem not_parseDnsResponse_total : ¬ ∀ data, parseDnsResponse data ≠ .error .panic := by
  intro h
  exact h [0xAB, 0xCD, 0x80, 0, 0, 0, 0, 1, 0, 0, 0, 0, 0xC0] (by decide +kernel)

end OpenOS.Net.Dns
