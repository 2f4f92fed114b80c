import DbExp.Foundation.Words
import DbExp.Foundation.OrdMap
import DbExp.Foundation.Machine

namespace DbExp.Tapir.Udp
open List
open Words (read_write_of_lt drop_write)

abbrev Bytes := List UInt8

-- A message as it goes through lib/udptransport.cc: the name of its type and the bytes it
-- serializes to. Its length with the two length fields is an ssize_t.
structure Message where
  type : Bytes
  data : Bytes
  fits : 16 + type.length + data.length < 2 ^ 63
  deriving DecidableEq

namespace Message
variable (m : Message)

def totalLen : Nat := 16 + m.type.length + m.data.length

def frame : Bytes := Words.write 8 m.type.length ++ (m.type ++ (Words.write 8 m.data.length ++ m.data))

@[simp] theorem length_frame : m.frame.length = m.totalLen := by
  simp only [frame,totalLen,length_append,Words.length_write]
  omega

end Message

-- The assertions of the sender; `none` is a failed one.
def serializeMessage (m : Message) : Option Bytes :=
  if 8 < m.totalLen ∧ 8 + m.type.length < m.totalLen ∧ 8 + m.type.length + 8 < m.totalLen ∧
      8 + m.type.length + 8 + m.data.length = m.totalLen then some m.frame
  else none

theorem serializeMessage_eq (m : Message) : serializeMessage m = if m.data ≠ [] then some m.frame else none := by
  unfold serializeMessage Message.totalLen
  refine if_congr ?_ rfl rfl
  rw [← length_pos_iff]
  omega

def MAX_UDP_MESSAGE_SIZE : Nat := 9000

def fragment (msgId : Nat) (buf : Bytes) (fragStart : Nat) : Bytes :=
  Words.write 8 0 ++ (Words.write 8 msgId ++ (Words.write 8 fragStart ++ (Words.write 8 buf.length ++
    (buf.drop fragStart).take MAX_UDP_MESSAGE_SIZE)))

def numFrags (msgLen : Nat) : Nat := (msgLen - 1) / MAX_UDP_MESSAGE_SIZE + 1

def datagrams (msgId : Nat) (m : Message) : List Bytes :=
  if m.totalLen ≤ MAX_UDP_MESSAGE_SIZE then [m.frame]
  else (List.range (numFrags m.totalLen)).map fun i => fragment msgId m.frame (i * MAX_UDP_MESSAGE_SIZE)

def word (buf : Bytes) (ptr : Nat) : Nat := Words.read 8 (buf.drop ptr)

def toInt (sz : Nat) : Int := Int.bmod sz (2 ^ 32)

def decodePacket (buf : Bytes) : Option (Bytes × Bytes) :=
  let sz := toInt buf.length
  let typeLen := word buf 0
  let msgLen := word buf (8 + typeLen)
  if 8 < sz ∧ ((8 + typeLen : Nat) : Int) < sz ∧ ((8 + typeLen + 8 : Nat) : Int) < sz ∧
      ((8 + typeLen + 8 + msgLen : Nat) : Int) ≤ sz then
    some ((buf.drop 8).take typeLen,(buf.drop (8 + typeLen + 8)).take msgLen)
  else none

structure FragInfo where
  msgId : Nat := 0
  data : Bytes := []
  deriving DecidableEq

structure Roll where
  drop : Bool := false
  reorder : Bool := false

structure Receiver (σ : Type) [LinearOrder σ] where
  fragInfo : OrdMap σ FragInfo
  reorderBuffer : Option (σ × Bytes × Bytes)
  delivered : List (σ × Bytes × Bytes)

namespace Receiver
variable {σ : Type} [LinearOrder σ]

def new : Receiver σ := ⟨.empty,none,[]⟩

section
variable (r : Receiver σ) (sender : σ)

def info : FragInfo := (r.fragInfo.find sender).getD {}

def setInfo (info : FragInfo) : Receiver σ := {r with fragInfo := r.fragInfo.insert sender info}

def dispatch (roll : Roll) (m : Bytes × Bytes) : Receiver σ :=
  if roll.drop then r
  else if r.reorderBuffer.isNone ∧ roll.reorder then {r with reorderBuffer := some (sender,m)}
  else {r with delivered := r.delivered ++ (sender,m) :: r.reorderBuffer.toList, reorderBuffer := none}

def receiveFragment (roll : Roll) (msgId fragStart msgLen : Nat) (bytes : Bytes) : Option (Receiver σ) :=
  let first := r.info sender
  let current : FragInfo := if first.msgId = 0 then ⟨msgId,[]⟩ else first
  if current.msgId ≠ msgId ∧ ¬ current.msgId < msgId then none
  else
    let info : FragInfo := if current.msgId ≠ msgId then ⟨msgId,[]⟩ else current
    if fragStart ≠ info.data.length then some (r.setInfo sender info)
    else if (info.data ++ bytes).length = msgLen then
      (decodePacket (info.data ++ bytes)).map ((r.setInfo sender {}).dispatch sender roll)
    else some (r.setInfo sender ⟨info.msgId,info.data ++ bytes⟩)

-- One turn of the loop in OnReadable. The first assertion subtracts without a sign, so it
-- fails for a length of eight only; so does the length of the rest of a message.
def onReadable (roll : Roll) (buf : Bytes) : Option (Receiver σ) :=
  if buf.length = 8 then none
  else if word buf 0 ≠ 0 then (decodePacket buf).map (r.dispatch sender roll)
  else if 8 < buf.length ∧ 16 < buf.length ∧ 24 < buf.length ∧ 32 < buf.length ∧
      buf.length - 32 = min ((word buf 24 + (2 ^ 64 - word buf 16)) % 2 ^ 64) MAX_UDP_MESSAGE_SIZE then
    r.receiveFragment sender roll (word buf 8) (word buf 16) (word buf 24) (buf.drop 32)
  else none

end

end Receiver

section
variable {sz : Nat}

theorem toInt_small (small : sz < 2 ^ 31) : toInt sz = sz := by
  unfold toInt
  rw [Int.bmod_def]
  omega

theorem toInt_lt (sz : Nat) : toInt sz < 2 ^ 31 := by
  unfold toInt
  rw [Int.bmod_def]
  omega

end

section
variable (m : Message)

theorem frame_type : word m.frame 0 = m.type.length :=
  read_write_of_lt (by have := m.fits; omega) _

theorem drop_frame : m.frame.drop (8 + m.type.length) = Words.write 8 m.data.length ++ m.data := by
  rw [← drop_drop,Message.frame,drop_write,drop_left]

theorem frame_data : word m.frame (8 + m.type.length) = m.data.length := by
  rw [word,drop_frame]
  exact read_write_of_lt (by have := m.fits; omega) _

theorem decodePacket_frame : decodePacket m.frame = if m.data ≠ [] ∧ m.totalLen < 2 ^ 31 then some (m.type,m.data) else none := by
  have type : (m.frame.drop 8).take m.type.length = m.type := by
    rw [Message.frame,drop_write,take_left]
  have data : (m.frame.drop (8 + m.type.length + 8)).take m.data.length = m.data := by
    rw [← drop_drop,drop_frame,drop_write,take_length]
  unfold decodePacket
  dsimp only
  rw [frame_type,frame_data,type,data,m.length_frame]
  refine if_congr ?_ rfl rfl
  rw [← length_pos_iff]
  by_cases small : m.totalLen < 2 ^ 31
  · rw [toInt_small small]
    unfold Message.totalLen at small ⊢
    omega
  · have cut := toInt_lt m.totalLen
    unfold Message.totalLen at small cut ⊢
    omega

-- An empty message fails the sender's assertions, and one past the range of an int the receiver's.
theorem decodes_what_was_serialized_iff (m : Message) :
    (serializeMessage m).bind decodePacket = some (m.type,m.data) ↔ m.data ≠ [] ∧ m.totalLen < 2 ^ 31 := by
  rw [serializeMessage_eq]
  split
  · rw [Option.bind_some,decodePacket_frame,Option.ite_none_right_eq_some]
    exact and_iff_left rfl
  next empty => exact iff_of_false nofun fun sent => empty sent.1

end

section
variable {msgId fragStart : Nat} {buf : Bytes}

theorem drop_fragment : (fragment msgId buf fragStart).drop 32 = (buf.drop fragStart).take MAX_UDP_MESSAGE_SIZE := by
  have header : (32 : Nat) = 8 + (8 + (8 + 8)) := rfl
  unfold fragment
  rw [header,← drop_drop,drop_write,← drop_drop,drop_write,← drop_drop,drop_write,drop_write]

theorem length_fragment : (fragment msgId buf fragStart).length = 32 + min MAX_UDP_MESSAGE_SIZE (buf.length - fragStart) := by
  unfold fragment
  simp only [length_append,Words.length_write,length_take,length_drop]
  omega

theorem fragment_words (id : msgId < 2 ^ 64) (start : fragStart < 2 ^ 64) (len : buf.length < 2 ^ 64) :
    word (fragment msgId buf fragStart) 0 = 0 ∧ word (fragment msgId buf fragStart) 8 = msgId ∧
      word (fragment msgId buf fragStart) 16 = fragStart ∧ word (fragment msgId buf fragStart) 24 = buf.length := by
  unfold word fragment
  refine ⟨read_write_of_lt (by decide) _,?_,?_,?_⟩
  · rw [drop_write]
    exact read_write_of_lt id _
  · rw [show (16 : Nat) = 8 + 8 from rfl,← drop_drop,drop_write,drop_write]
    exact read_write_of_lt start _
  · rw [show (24 : Nat) = 8 + (8 + 8) from rfl,← drop_drop,drop_write,← drop_drop,drop_write,drop_write]
    exact read_write_of_lt len _

end

namespace Receiver
variable {σ : Type} [LinearOrder σ] {r : Receiver σ} {sender : σ} {roll : Roll}

@[simp] theorem info_setInfo (r : Receiver σ) (sender other : σ) (info : FragInfo) :
    (r.setInfo sender info).info other = if sender = other then info else r.info other := by
  unfold Receiver.info setInfo
  rw [OrdMap.find_insert]
  split <;> rfl

@[simp] theorem info_dispatch (r : Receiver σ) (m : Bytes × Bytes) (other : σ) :
    (r.dispatch sender roll m).info other = r.info other := by
  unfold dispatch
  split
  · rfl
  · split <;> rfl

def heard (r : Receiver σ) : List (σ × Bytes × Bytes) := r.delivered ++ r.reorderBuffer.toList

theorem mem_heard_dispatch {m : Bytes × Bytes} (mem : p ∈ (r.dispatch sender roll m).heard) : p = (sender,m) ∨ p ∈ r.heard := by
  unfold dispatch at mem
  unfold heard at mem ⊢
  split at mem
  · exact .inr mem
  split at mem
  next held =>
    simp only [Option.toList_some,mem_append,mem_singleton] at mem ⊢
    rcases mem with old | rfl
    · exact .inr (.inl old)
    · exact .inl rfl
  · simpa [or_left_comm] using mem

section
variable (r : Receiver σ) (sender : σ)

theorem delivered_dispatch (m : Bytes × Bytes) :
    (r.dispatch sender {} m).delivered = r.delivered ++ (sender,m) :: r.reorderBuffer.toList := by
  simp [dispatch]

def Late (msgId : Nat) : Prop := msgId < (r.info sender).msgId

instance (msgId : Nat) : Decidable (r.Late sender msgId) := Nat.decLt ..

def kept (msgId : Nat) : Bytes := if (r.info sender).msgId = msgId then (r.info sender).data else []

end

theorem receiveFragment_eq (nonzero : msgId ≠ 0) (fragStart msgLen : Nat) (bytes : Bytes) :
    r.receiveFragment sender roll msgId fragStart msgLen bytes =
      if r.Late sender msgId then none
      else if fragStart ≠ (r.kept sender msgId).length then some (r.setInfo sender ⟨msgId,r.kept sender msgId⟩)
      else if (r.kept sender msgId ++ bytes).length = msgLen then
        (decodePacket (r.kept sender msgId ++ bytes)).map ((r.setInfo sender {}).dispatch sender roll)
      else some (r.setInfo sender ⟨msgId,r.kept sender msgId ++ bytes⟩) := by
  rcases first : r.info sender with ⟨id,_⟩
  have isLate : r.Late sender msgId ↔ msgId < id := by rw [Late,first]
  unfold receiveFragment kept
  simp only [first,isLate]
  by_cases vacant : id = 0
  · subst vacant
    simp [nonzero.symm]
  rw [if_neg vacant]
  by_cases same : id = msgId
  · subst same
    simp
  by_cases late : msgId < id
  · have notLess : ¬ id < msgId := Nat.lt_asymm late
    simp [same,late,notLess]
  · have less : id < msgId := by omega
    simp [same,late,less]

theorem onReadable_whole (m : Message) (named : m.type ≠ []) :
    r.onReadable sender roll m.frame = (decodePacket m.frame).map (r.dispatch sender roll) := by
  have nonzero : word m.frame 0 ≠ 0 := by
    rw [frame_type]
    exact (length_pos_iff.mpr named).ne'
  have long : m.frame.length ≠ 8 := by
    rw [m.length_frame,Message.totalLen]
    omega
  unfold onReadable
  rw [if_neg long,if_pos nonzero]

theorem onReadable_fragment (id : msgId < 2 ^ 64) (start : fragStart < buf.length) (len : buf.length < 2 ^ 64) :
    r.onReadable sender roll (fragment msgId buf fragStart) =
      r.receiveFragment sender roll msgId fragStart buf.length ((buf.drop fragStart).take MAX_UDP_MESSAGE_SIZE) := by
  obtain ⟨zero,idWord,startWord,lenWord⟩ := fragment_words id (start.trans len) len
  have rest : (buf.length + (2 ^ 64 - fragStart)) % 2 ^ 64 = buf.length - fragStart := by omega
  have positive : 0 < MAX_UDP_MESSAGE_SIZE := by decide
  unfold onReadable
  rw [length_fragment,zero,idWord,startWord,lenWord,drop_fragment,rest,if_neg (by omega),if_neg (by simp),if_pos (by omega)]

end Receiver

end DbExp.Tapir.Udp
