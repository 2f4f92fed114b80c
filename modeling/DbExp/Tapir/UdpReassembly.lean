import DbExp.Tapir.UdpTransport

namespace DbExp.Tapir.Udp
variable {σ : Type}

structure Sending (σ : Type) where
  sender : σ
  msgId : Nat
  message : Message
  deriving DecidableEq

namespace Sending

section
variable (x : Sending σ)

def Large : Prop := MAX_UDP_MESSAGE_SIZE < x.message.totalLen

instance : Decidable x.Large := Nat.decLt ..

def datagrams : List Bytes := Udp.datagrams x.msgId x.message

def part (count : Nat) : Bytes := x.message.frame.take (count * MAX_UDP_MESSAGE_SIZE)

end

section
variable {x : Sending σ} {i : Nat}

theorem datagrams_small (small : ¬ x.Large) : x.datagrams = [x.message.frame] := if_pos (Nat.le_of_not_lt small)

theorem datagrams_large (large : x.Large) :
    x.datagrams = (List.range (numFrags x.message.totalLen)).map fun i => fragment x.msgId x.message.frame (i * MAX_UDP_MESSAGE_SIZE) :=
  if_neg (Nat.not_le_of_gt large)

theorem lt_numFrags : i < numFrags x.message.totalLen ↔ i * MAX_UDP_MESSAGE_SIZE < x.message.totalLen := by
  unfold numFrags MAX_UDP_MESSAGE_SIZE Message.totalLen
  omega

theorem fragment_of_large (large : x.Large) (got : x.datagrams[i]? = some d) :
    i * MAX_UDP_MESSAGE_SIZE < x.message.totalLen ∧ d = fragment x.msgId x.message.frame (i * MAX_UDP_MESSAGE_SIZE) := by
  rw [datagrams_large large,List.getElem?_map] at got
  obtain ⟨_,listed,rfl⟩ := Option.map_eq_some_iff.mp got
  obtain ⟨inside,same⟩ := List.getElem?_eq_some_iff.mp listed
  rw [List.getElem_range] at same
  subst same
  rw [List.length_range] at inside
  exact ⟨lt_numFrags.mp inside,rfl⟩

theorem frame_of_small (small : ¬ x.Large) (got : x.datagrams[i]? = some d) : d = x.message.frame := by
  rw [datagrams_small small] at got
  exact List.mem_singleton.mp (List.mem_of_getElem? got)

theorem part_next (x : Sending σ) (count : Nat) :
    x.part count ++ (x.message.frame.drop (count * MAX_UDP_MESSAGE_SIZE)).take MAX_UDP_MESSAGE_SIZE = x.part (count + 1) := by
  unfold part
  rw [Nat.succ_mul,List.take_add]

theorem part_all (last : x.message.totalLen ≤ count * MAX_UDP_MESSAGE_SIZE) : x.part count = x.message.frame :=
  List.take_of_length_le (x.message.length_frame.trans_le last)

theorem length_part (filled : count * MAX_UDP_MESSAGE_SIZE ≤ x.message.totalLen) :
    (x.part count).length = count * MAX_UDP_MESSAGE_SIZE := by
  rw [part,List.length_take,x.message.length_frame,Nat.min_eq_left filled]

end

end Sending

variable [LinearOrder σ]

-- Peers that send, and a network that may lose, repeat and reorder: whatever has been sent
-- arrives when it likes, any number of times.
structure System (σ : Type) [LinearOrder σ] where
  lastFragMsgId : σ → Nat
  sent : List (Sending σ)
  receiver : Receiver σ

inductive Event (σ : Type) where
  | send (sender : σ) (m : Message)
  | arrive (x : Sending σ) (i : Nat) (roll : Roll)

namespace System

def new : System σ := ⟨fun _ => 0,[],.new⟩

section
variable (s : System σ)

def nextId (sender : σ) : Nat := (s.lastFragMsgId sender + 1) % 2 ^ 64

def send (sender : σ) (m : Message) : System σ :=
  {s with
    sent := s.sent ++ [⟨sender,s.nextId sender,m⟩]
    lastFragMsgId := fun other => if other = sender ∧ MAX_UDP_MESSAGE_SIZE < m.totalLen then s.nextId sender else s.lastFragMsgId other}

def arrive (x : Sending σ) (i : Nat) (roll : Roll) : Option (System σ) :=
  if x ∈ s.sent then
    x.datagrams[i]?.bind fun d => (s.receiver.onReadable x.sender roll d).map fun r => {s with receiver := r}
  else none

def step : Event σ → Option (System σ)
  | .send sender m => some (s.send sender m)
  | .arrive x i roll => s.arrive x i roll

def Named : Event σ → Prop
  | .send sender m => m.type ≠ [] ∧ (MAX_UDP_MESSAGE_SIZE < m.totalLen → s.lastFragMsgId sender + 1 < 2 ^ 64)
  | .arrive .. => True

instance (e : Event σ) : Decidable (s.Named e) := by
  unfold System.Named; split <;> infer_instance

end

end System

def udp (σ : Type) [LinearOrder σ] : Machine (System σ) (Event σ) := ⟨.new,System.step⟩

structure Sound (s : System σ) : Prop where
  bounded : ∀ sender, s.lastFragMsgId sender < 2 ^ 64
  named : ∀ x ∈ s.sent, x.message.type ≠ []
  numbered : ∀ x ∈ s.sent, x.Large → x.msgId ≠ 0 ∧ x.msgId ≤ s.lastFragMsgId x.sender
  unique : ∀ x ∈ s.sent, ∀ y ∈ s.sent, x.Large → y.Large → x.sender = y.sender → x.msgId = y.msgId → x = y
  partway : ∀ sender, (s.receiver.info sender).msgId ≠ 0 → ∃ x ∈ s.sent, x.Large ∧ x.sender = sender ∧
    x.msgId = (s.receiver.info sender).msgId ∧
    ∃ count, count * MAX_UDP_MESSAGE_SIZE < x.message.totalLen ∧ (s.receiver.info sender).data = x.part count
  heard : ∀ p ∈ s.receiver.heard, ∃ x ∈ s.sent, p = (x.sender,x.message.type,x.message.data)

section
variable {s : System σ} {x : Sending σ} {i : Nat}

theorem new_sound : Sound (System.new : System σ) where
  bounded := fun _ => Nat.two_pow_pos 64
  named := nofun
  numbered := nofun
  unique := nofun
  partway := fun _ filled => absurd rfl filled
  heard := nofun

section
variable {sender : σ} {m : Message}

theorem nextId_of_named (named : s.Named (.send sender m)) (cut : MAX_UDP_MESSAGE_SIZE < m.totalLen) :
    s.nextId sender = s.lastFragMsgId sender + 1 := Nat.mod_eq_of_lt (named.2 cut)

theorem last_send (other : σ) : (s.send sender m).lastFragMsgId other =
    if other = sender ∧ MAX_UDP_MESSAGE_SIZE < m.totalLen then s.nextId sender else s.lastFragMsgId other := rfl

theorem mem_send : x ∈ (s.send sender m).sent ↔ x ∈ s.sent ∨ x = ⟨sender,s.nextId sender,m⟩ := by
  simp [System.send]

theorem nextId_fresh (sound : Sound s) (named : s.Named (.send sender m)) (cut : MAX_UDP_MESSAGE_SIZE < m.totalLen) (mem : x ∈ s.sent)
    (large : x.Large) (same : x.sender = sender) : x.msgId ≠ s.nextId sender := by
  have below := (sound.numbered x mem large).2
  rw [same] at below
  rw [nextId_of_named named cut]
  omega

theorem last_le_send (named : s.Named (.send sender m)) (other : σ) : s.lastFragMsgId other ≤ (s.send sender m).lastFragMsgId other := by
  rw [last_send]
  split
  next own =>
    rw [nextId_of_named named own.2,own.1]
    exact Nat.le_succ _
  · exact le_rfl

theorem send_sound (sound : Sound s) (named : s.Named (.send sender m)) : Sound (s.send sender m) := by
  refine ⟨fun other => ?_,fun x mem => ?_,fun x mem large => ?_,fun x one y two largeX largeY sameSender sameId => ?_,
    fun other filled => ?_,fun p mem => ?_⟩
  · rw [last_send]
    split
    · exact Nat.mod_lt _ (Nat.two_pow_pos 64)
    · exact sound.bounded other
  · rcases mem_send.mp mem with old | rfl
    · exact sound.named x old
    · exact named.1
  · rcases mem_send.mp mem with old | rfl
    · exact ⟨(sound.numbered x old large).1,(sound.numbered x old large).2.trans (last_le_send named _)⟩
    · have next := nextId_of_named named large
      refine ⟨by rw [next]; exact Nat.succ_ne_zero _,?_⟩
      rw [last_send,if_pos ⟨rfl,large⟩]
  · rcases mem_send.mp one with oldX | rfl
    · rcases mem_send.mp two with oldY | rfl
      · exact sound.unique x oldX y oldY largeX largeY sameSender sameId
      · exact absurd sameId (nextId_fresh sound named largeY oldX largeX sameSender)
    · rcases mem_send.mp two with oldY | rfl
      · exact absurd sameId.symm (nextId_fresh sound named largeX oldY largeY sameSender.symm)
      · rfl
  · obtain ⟨x,mem,rest⟩ := sound.partway other filled
    exact ⟨x,mem_send.mpr (.inl mem),rest⟩
  · obtain ⟨x,mem,same⟩ := sound.heard p mem
    exact ⟨x,mem_send.mpr (.inl mem),same⟩

end

section
variable (sound : Sound s)
include sound

section
variable (mem : x ∈ s.sent)
include mem

theorem kept_part (large : x.Large) :
    ∃ count, count * MAX_UDP_MESSAGE_SIZE < x.message.totalLen ∧ s.receiver.kept x.sender x.msgId = x.part count := by
  unfold Receiver.kept
  split
  next same =>
    obtain ⟨y,sent,largeY,sender,id,count,short,data⟩ := sound.partway x.sender (same ▸ (sound.numbered x mem large).1)
    obtain rfl := sound.unique x mem y sent large largeY sender.symm (same.symm.trans id.symm)
    exact ⟨count,short,data⟩
  · refine ⟨0,?_,?_⟩
    · rw [Nat.zero_mul]
      exact Nat.zero_lt_of_lt large
    · rw [Sending.part,Nat.zero_mul,List.take_zero]

theorem arrive_small (small : ¬ x.Large) (got : x.datagrams[i]? = some d) (roll : Roll) :
    s.receiver.onReadable x.sender roll d =
      if x.message.data ≠ [] then some (s.receiver.dispatch x.sender roll (x.message.type,x.message.data)) else none := by
  have short : x.message.totalLen < 2 ^ 31 := (Nat.le_of_not_lt small).trans_lt (by decide)
  rw [Sending.frame_of_small small got,Receiver.onReadable_whole _ (sound.named x mem),decodePacket_frame,apply_ite (Option.map _)]
  exact if_congr (and_iff_left short) rfl rfl

theorem arrive_large (large : x.Large) (got : x.datagrams[i]? = some d) (roll : Roll)
    (short : count * MAX_UDP_MESSAGE_SIZE < x.message.totalLen) (kept : s.receiver.kept x.sender x.msgId = x.part count) :
    s.receiver.onReadable x.sender roll d =
      if s.receiver.Late x.sender x.msgId then none
      else if i ≠ count then some (s.receiver.setInfo x.sender ⟨x.msgId,x.part count⟩)
      else if x.message.totalLen ≤ (i + 1) * MAX_UDP_MESSAGE_SIZE then
        if x.message.data ≠ [] ∧ x.message.totalLen < 2 ^ 31 then
          some ((s.receiver.setInfo x.sender {}).dispatch x.sender roll (x.message.type,x.message.data))
        else none
      else some (s.receiver.setInfo x.sender ⟨x.msgId,x.part (i + 1)⟩) := by
  obtain ⟨_,rfl⟩ := Sending.fragment_of_large large got
  have numbered := sound.numbered x mem large
  have id : x.msgId < 2 ^ 64 := numbered.2.trans_lt (sound.bounded x.sender)
  have len : x.message.frame.length < 2 ^ 64 := by
    have := x.message.fits
    rw [x.message.length_frame,Message.totalLen]
    omega
  rw [Receiver.onReadable_fragment id (by rwa [x.message.length_frame]) len,Receiver.receiveFragment_eq numbered.1,kept]
  refine if_congr Iff.rfl rfl ?_
  have length := Sending.length_part short.le
  by_cases same : i = count
  · subst same
    rw [if_neg (not_not_intro length.symm),if_neg (not_not_intro rfl),Sending.part_next]
    by_cases last : x.message.totalLen ≤ (i + 1) * MAX_UDP_MESSAGE_SIZE
    · rw [Sending.part_all last,if_pos rfl,if_pos last,decodePacket_frame,apply_ite (Option.map _)]
      rfl
    · have more := Nat.le_of_not_le last
      rw [if_neg last,Sending.length_part more,x.message.length_frame,if_neg (fun all => last all.ge)]
  have apart : i * MAX_UDP_MESSAGE_SIZE ≠ (x.part count).length := by
    rw [length]
    exact fun equal => same (Nat.eq_of_mul_eq_mul_right (by decide) equal)
  rw [if_pos apart,if_pos same]

theorem setInfo_sound (large : x.Large)
    (short : count * MAX_UDP_MESSAGE_SIZE < x.message.totalLen) :
    Sound {s with receiver := s.receiver.setInfo x.sender ⟨x.msgId,x.part count⟩} := by
  refine ⟨sound.bounded,sound.named,sound.numbered,sound.unique,fun sender filled => ?_,sound.heard⟩
  rw [Receiver.info_setInfo] at filled ⊢
  split at filled
  next same =>
    rw [if_pos same]
    exact ⟨x,mem,large,same,rfl,count,short,rfl⟩
  next other =>
    rw [if_neg other]
    exact sound.partway sender filled

end

theorem clear_sound (sender : σ) : Sound {s with receiver := s.receiver.setInfo sender {}} := by
  refine ⟨sound.bounded,sound.named,sound.numbered,sound.unique,fun other filled => ?_,sound.heard⟩
  rw [Receiver.info_setInfo] at filled ⊢
  split at filled
  · exact absurd rfl filled
  next apart =>
    rw [if_neg apart]
    exact sound.partway other filled

theorem dispatch_sound (mem : x ∈ s.sent) (roll : Roll) :
    Sound {s with receiver := s.receiver.dispatch x.sender roll (x.message.type,x.message.data)} := by
  refine ⟨sound.bounded,sound.named,sound.numbered,sound.unique,fun sender filled => ?_,fun p listed => ?_⟩
  · simp only [Receiver.info_dispatch] at filled ⊢
    exact sound.partway sender filled
  · rcases Receiver.mem_heard_dispatch listed with rfl | old
    · exact ⟨x,mem,rfl⟩
    · exact sound.heard p old

theorem arrive_sound (mem : x ∈ s.sent) (got : x.datagrams[i]? = some d)
    (done : s.receiver.onReadable x.sender roll d = some r) : Sound {s with receiver := r} := by
  by_cases large : x.Large
  · obtain ⟨_,short,kept⟩ := kept_part sound mem large
    rw [arrive_large sound mem large got roll short kept] at done
    split at done
    · cases done
    split at done
    · cases done
      exact setInfo_sound sound mem large short
    split at done
    · split at done
      · cases done
        exact dispatch_sound (clear_sound sound x.sender) mem roll
      · cases done
    next more =>
      cases done
      exact setInfo_sound sound mem large (Nat.lt_of_not_le more)
  rw [arrive_small sound mem large got roll] at done
  obtain ⟨_,rfl⟩ := of_guard done
  exact dispatch_sound sound mem roll

end

theorem sound_of_reached (reached : (udp σ).Reached System.Named s) : Sound s := by
  refine Machine.Reached.invariant Sound new_sound ?_ reached
  intro s e t _ sound named taken
  cases e with
  | send sender m =>
    cases Option.some.inj taken
    exact send_sound sound named
  | arrive x i roll =>
    dsimp only [udp,System.step,System.arrive] at taken
    split at taken
    next mem =>
      obtain ⟨_,got,rest⟩ := Option.bind_eq_some_iff.mp taken
      obtain ⟨_,done,rfl⟩ := Option.map_eq_some_iff.mp rest
      exact arrive_sound sound mem got done
    · cases taken

end

section
variable (r : Receiver σ) (x : Sending σ)

def Completes (i : Nat) : Prop :=
  (r.kept x.sender x.msgId).length = i * MAX_UDP_MESSAGE_SIZE ∧ x.message.totalLen ≤ (i + 1) * MAX_UDP_MESSAGE_SIZE

-- A fragment does not come after one of a later message while that one is incomplete, and
-- what is complete has a payload and a length that is an int.
def OnTime (i : Nat) : Prop :=
  if x.Large then ¬ r.Late x.sender x.msgId ∧ (Completes r x i → x.message.data ≠ [] ∧ x.message.totalLen < 2 ^ 31)
  else x.message.data ≠ []

def arriveAll : Option (Receiver σ) := x.datagrams.foldlM (fun r d => r.onReadable x.sender {} d) r

end

section
variable {s : System σ} {x : Sending σ} {i : Nat}

section
variable (sound : Sound s) (mem : x ∈ s.sent)
include sound mem

theorem onReadable_isSome (got : x.datagrams[i]? = some d) (roll : Roll) :
    (s.receiver.onReadable x.sender roll d).isSome = true ↔ OnTime s.receiver x i := by
  unfold OnTime
  by_cases large : x.Large
  · obtain ⟨count,short,kept⟩ := kept_part sound mem large
    have completes : Completes s.receiver x i ↔ i = count ∧ x.message.totalLen ≤ (i + 1) * MAX_UDP_MESSAGE_SIZE := by
      unfold Completes
      rw [kept,Sending.length_part short.le,eq_comm,Nat.mul_left_inj (by decide)]
    rw [arrive_large sound mem large got roll short kept,if_pos large,completes]
    by_cases late : s.receiver.Late x.sender x.msgId
    · simp [late]
    by_cases same : i = count
    · by_cases last : x.message.totalLen ≤ (i + 1) * MAX_UDP_MESSAGE_SIZE
      · rw [if_neg late,if_neg (not_not_intro same),if_pos last]
        by_cases proper : x.message.data ≠ [] ∧ x.message.totalLen < 2 ^ 31
        · rw [if_pos proper]
          exact iff_of_true rfl ⟨late,fun _ => proper⟩
        · rw [if_neg proper]
          exact iff_of_false (by simp) fun onTime => proper (onTime.2 ⟨same,last⟩)
      · rw [if_neg late,if_neg (not_not_intro same),if_neg last]
        exact iff_of_true rfl ⟨late,fun complete => absurd complete.2 last⟩
    · rw [if_neg late,if_pos same]
      exact iff_of_true rfl ⟨late,fun complete => absurd complete.1 same⟩
  rw [arrive_small sound mem large got roll,if_neg large]
  by_cases empty : x.message.data = []
  · simp [empty]
  · simp [empty]

theorem rest_delivered (large : x.Large) (payload : x.message.data ≠ [])
    (int : x.message.totalLen < 2 ^ 31) (notLate : ¬ s.receiver.Late x.sender x.msgId)
    (inside : i * MAX_UDP_MESSAGE_SIZE < x.message.totalLen) (ahead : i ≤ count)
    (short : count * MAX_UDP_MESSAGE_SIZE < x.message.totalLen) (kept : s.receiver.kept x.sender x.msgId = x.part count) :
    ∃ r, (x.datagrams.drop i).foldlM (fun r d => r.onReadable x.sender {} d) s.receiver = some r ∧
      ∃ more, r.delivered = s.receiver.delivered ++ (x.sender,x.message.type,x.message.data) :: more := by
  induction gap : numFrags x.message.totalLen - i generalizing i s count with
  | zero =>
    have := Sending.lt_numFrags.mpr inside
    omega
  | succ gap ih =>
    have listed : i < x.datagrams.length := by
      rw [Sending.datagrams_large large,List.length_map,List.length_range]
      exact Sending.lt_numFrags.mpr inside
    have arrives := arrive_large sound mem large (List.getElem?_eq_getElem listed) {} short kept
    rw [if_neg notLate] at arrives
    rw [List.drop_eq_getElem_cons listed,List.foldlM_cons,arrives]
    -- What the receiver has after this fragment, if the message is not complete with it.
    have onward (next : Nat) (later : i + 1 ≤ next) (less : next * MAX_UDP_MESSAGE_SIZE < x.message.totalLen) :
        ∃ r, (x.datagrams.drop (i + 1)).foldlM (fun r d => r.onReadable x.sender {} d)
          (s.receiver.setInfo x.sender ⟨x.msgId,x.part next⟩) = some r ∧
          ∃ more, r.delivered = s.receiver.delivered ++ (x.sender,x.message.type,x.message.data) :: more := by
      have current : (s.receiver.setInfo x.sender ⟨x.msgId,x.part next⟩).info x.sender = ⟨x.msgId,x.part next⟩ := by simp
      refine ih (s := {s with receiver := s.receiver.setInfo x.sender ⟨x.msgId,x.part next⟩}) (setInfo_sound sound mem large less)
        mem ?_ ?_ later less ?_ (by omega)
      · rw [Receiver.Late,current]
        exact Nat.lt_irrefl _
      · exact (Nat.mul_le_mul_right _ later).trans_lt less
      · rw [Receiver.kept,current,if_pos rfl]
    by_cases same : i = count
    · rw [if_neg (not_not_intro same)]
      by_cases last : x.message.totalLen ≤ (i + 1) * MAX_UDP_MESSAGE_SIZE
      · have vacant : x.datagrams.drop (i + 1) = [] := by
          refine List.drop_of_length_le ?_
          rw [Sending.datagrams_large large,List.length_map,List.length_range]
          exact Nat.le_of_not_lt fun more => absurd (Sending.lt_numFrags.mp more) (Nat.not_lt.mpr last)
        rw [if_pos last,if_pos ⟨payload,int⟩,vacant]
        exact ⟨_,rfl,_,Receiver.delivered_dispatch ..⟩
      · rw [if_neg last]
        exact onward (i + 1) le_rfl (Nat.lt_of_not_le last)
    · rw [if_pos same]
      exact onward count (by omega) short

theorem all_delivered (payload : x.message.data ≠ []) (int : x.message.totalLen < 2 ^ 31)
    (notLate : x.Large → ¬ s.receiver.Late x.sender x.msgId) :
    ∃ r, arriveAll s.receiver x = some r ∧
      ∃ more, r.delivered = s.receiver.delivered ++ (x.sender,x.message.type,x.message.data) :: more := by
  unfold arriveAll
  by_cases large : x.Large
  · obtain ⟨count,short,kept⟩ := kept_part sound mem large
    have start : 0 * MAX_UDP_MESSAGE_SIZE < x.message.totalLen := by
      rw [Nat.zero_mul]
      exact Nat.zero_lt_of_lt large
    have delivered := rest_delivered sound mem large payload int (notLate large) start (Nat.zero_le count) short kept
    rwa [List.drop_zero] at delivered
  have got : x.datagrams[0]? = some x.message.frame := by rw [Sending.datagrams_small large]; rfl
  have arrives := arrive_small sound mem large got {}
  rw [if_pos payload] at arrives
  rw [Sending.datagrams_small large,List.foldlM_cons,arrives]
  exact ⟨_,rfl,_,Receiver.delivered_dispatch ..⟩

end

end

theorem reassembles_iff_on_time (s : System σ) (reached : (udp σ).Reached System.Named s) :
    (∀ p ∈ s.receiver.delivered, ∃ x ∈ s.sent, p = (x.sender,x.message.type,x.message.data)) ∧
    (∀ x ∈ s.sent, ∀ i d, x.datagrams[i]? = some d → ∀ roll,
      (s.receiver.onReadable x.sender roll d).isSome = true ↔ OnTime s.receiver x i) ∧
    ∀ x ∈ s.sent, x.message.data ≠ [] → x.message.totalLen < 2 ^ 31 → (x.Large → ¬ s.receiver.Late x.sender x.msgId) →
      ∃ r, arriveAll s.receiver x = some r ∧
        ∃ more, r.delivered = s.receiver.delivered ++ (x.sender,x.message.type,x.message.data) :: more := by
  have sound := sound_of_reached reached
  refine ⟨fun p delivered => sound.heard p (List.mem_append_left _ delivered),?_,?_⟩
  · intro x member i d found roll
    exact onReadable_isSome sound member found roll
  · intro x member payload int notLate
    exact all_delivered sound member payload int notLate

-- A message of 9017 bytes, in two fragments.
theorem large_fits : 16 + [(1 : UInt8)].length + (List.replicate 9000 (0 : UInt8)).length < 2 ^ 63 := by
  rw [List.length_replicate]
  decide

def largeMessage : Message := ⟨[1],List.replicate 9000 0,large_fits⟩

theorem largeMessage_total : largeMessage.totalLen = 9017 := by
  rw [Message.totalLen,largeMessage,List.length_replicate]
  rfl

theorem largeMessage_payload : largeMessage.data ≠ [] := List.cons_ne_nil _ _

def firstSent : System Nat := System.new.send 0 largeMessage

theorem firstSent_reached : (udp Nat).Reached System.Named firstSent :=
  .step .initial (a := .send 0 largeMessage) ⟨by decide,fun _ => by decide⟩ rfl

theorem reassembles_large_message : ∃ r, arriveAll firstSent.receiver ⟨0,1,largeMessage⟩ = some r ∧
    ∃ more, r.delivered = (0,[1],List.replicate 9000 0) :: more := by
  have parts := reassembles_iff_on_time firstSent firstSent_reached
  refine parts.2.2 ⟨0,1,largeMessage⟩ List.mem_cons_self ?_ ?_ fun _ => Nat.not_lt_zero _
  · exact largeMessage_payload
  · rw [largeMessage_total]
    decide

def largeSending (msgId : Nat) : Sending Nat := ⟨0,msgId,largeMessage⟩

theorem largeSending_large (msgId : Nat) : (largeSending msgId).Large := by
  rw [Sending.Large,largeSending,largeMessage_total]
  decide

theorem largeSending_fragment (msgId : Nat) : ∃ d, (largeSending msgId).datagrams[0]? = some d := by
  have filled : 0 < (largeSending msgId).datagrams.length := by
    rw [Sending.datagrams_large (largeSending_large msgId),List.length_map,List.length_range]
    exact Nat.succ_pos _
  exact ⟨_,List.getElem?_eq_getElem filled⟩

def overtaken : System Nat :=
  {firstSent.send 0 largeMessage with receiver := Receiver.new.setInfo 0 ⟨2,(largeSending 2).part 1⟩}

theorem overtaken_reached : (udp Nat).Reached System.Named overtaken := by
  have last : firstSent.lastFragMsgId 0 = 1 := by
    rw [firstSent,last_send,if_pos ⟨rfl,largeSending_large 1⟩]
    rfl
  have both : (udp Nat).Reached System.Named (firstSent.send 0 largeMessage) :=
    .step firstSent_reached (a := .send 0 largeMessage) ⟨by decide,fun _ => by rw [last]; decide⟩ rfl
  obtain ⟨_,got⟩ := largeSending_fragment 2
  have mem : largeSending 2 ∈ (firstSent.send 0 largeMessage).sent :=
    mem_send.mpr (.inr (by rw [System.nextId,last]; rfl))
  have start : 0 * MAX_UDP_MESSAGE_SIZE < (largeSending 2).message.totalLen := by
    rw [largeSending,largeMessage_total]
    decide
  have more : ¬ (largeSending 2).message.totalLen ≤ (0 + 1) * MAX_UDP_MESSAGE_SIZE := by
    rw [largeSending,largeMessage_total]
    decide
  have nothing : (Receiver.new : Receiver Nat).kept 0 2 = (largeSending 2).part 0 := by
    rw [Sending.part,Nat.zero_mul,List.take_zero]
    rfl
  have arrives := arrive_large (sound_of_reached both) mem (largeSending_large 2) got {} start nothing
  have inTime : ¬ (firstSent.send 0 largeMessage).receiver.Late (largeSending 2).sender (largeSending 2).msgId := Nat.not_lt_zero _
  rw [if_neg inTime,if_neg (not_not_intro rfl),if_neg more] at arrives
  refine .step both (a := .arrive (largeSending 2) 0 {}) trivial ?_
  dsimp only [udp,System.step,System.arrive]
  rw [if_pos mem,got,Option.bind_some,arrives]
  rfl

theorem empty_fits : 16 + [(1 : UInt8)].length + ([] : Bytes).length < 2 ^ 63 := by decide

def disguised : Bytes := [0,0,0,0,0,0,0,0,18,0,0,0,0,0,0,0,1,0,0,0,0,0,0,0,65,1,0,0,0,0,0,0,0,66]

theorem disguised_fits : 16 + ([] : Bytes).length + disguised.length < 2 ^ 63 := by decide

-- A fragment that has been overtaken fails an assertion, and so does a message without a
-- payload; a message whose type has no name is taken for a fragment, and its payload for a message.
theorem overtaken_fragment_fails :
    (¬ ∀ s : System Nat, (udp Nat).Reached System.Named s → ∀ x ∈ s.sent, x.message.data ≠ [] →
      ∀ (i : Nat) d, x.datagrams[i]? = some d → (s.receiver.onReadable x.sender {} d).isSome = true) ∧
    (Receiver.new : Receiver Nat).onReadable 0 {} (Message.frame ⟨[1],[],empty_fits⟩) = none ∧
    ((Receiver.new : Receiver Nat).onReadable 0 {} (Message.frame ⟨[],disguised,disguised_fits⟩)).map Receiver.delivered =
      some [(0,[65],[66])] := by
  refine ⟨fun claimed => ?_,by decide +kernel,by decide +kernel⟩
  obtain ⟨d,found⟩ := largeSending_fragment 1
  have member : largeSending 1 ∈ overtaken.sent := by
    have old : largeSending 1 ∈ firstSent.sent := mem_send.mpr (.inr rfl)
    exact mem_send.mpr (.inl old)
  have passed := claimed overtaken overtaken_reached (largeSending 1) member largeMessage_payload 0 d found
  rw [onReadable_isSome (sound_of_reached overtaken_reached) member found,OnTime,if_pos (largeSending_large 1)] at passed
  exact passed.1 (by decide)

end DbExp.Tapir.Udp
