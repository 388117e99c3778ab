import MarketLab.MarketData.Publisher

/-!
# What a call of `publish` reports

A call hands its sends to the socket one after the other, returns when all were complete and throws
at the first that was not.
-/
namespace MarketLab.MarketData
open MarketLab.Matching (Event)

/-- A complete send added to a result. -/
def PublishResult.count (result : PublishResult) (send : Send) : PublishResult :=
  result.add send.datagram send.datagram.bytes.length

theorem PublishResult.messages_counted (result : PublishResult) (sent : List Send) :
    (sent.foldl count result).messagesPublished = result.messagesPublished + sent.length := by
  induction sent generalizing result with
  | nil => rfl
  | cons send sent ih =>
    rw [List.foldl_cons, ih, List.length_cons]
    simp only [count, add]
    omega

theorem PublishResult.bytes_counted (result : PublishResult) {sent : List Send}
    (whole : ∀ send ∈ sent, send.datagram.bytes.length = packetSize) :
    (sent.foldl count result).bytesSent = result.bytesSent + packetSize * sent.length := by
  induction sent generalizing result with
  | nil => rfl
  | cons send sent ih =>
    obtain ⟨here, later⟩ := List.forall_mem_cons.mp whole
    rw [List.foldl_cons, ih _ later, List.length_cons]
    simp only [count, add, here]
    rw [Nat.mul_succ]
    omega

theorem PublishResult.last_counted (result : PublishResult) (sent : List Send) :
    (sent.foldl count result).lastSequence =
      (sent.getLast?.map fun send => send.datagram.sequence).getD result.lastSequence := by
  induction sent using List.reverseRecOn with
  | nil => rfl
  | append_singleton sent send _ =>
    rw [List.foldl_concat, List.getLast?_concat]
    rfl

theorem PublishResult.first_counted (result : PublishResult) (sent : List Send) :
    (sent.foldl count result).firstSequence =
      if result.messagesPublished = 0 then
        (sent.head?.map fun send => send.datagram.sequence).getD result.firstSequence
      else result.firstSequence := by
  induction sent generalizing result with
  | nil => simp
  | cons send sent ih =>
    rw [List.foldl_cons, ih]
    simp [count, add]

namespace MulticastPublisher

/-- How a loop over events ends that has sent these. -/
inductive Ends (sent : List Send) (result : PublishResult) (events : List Event) :
    Except PublishFault PublishResult → Prop
  | returned (complete : ∀ send ∈ sent, send.complete = true) (all : sent.length = events.countP isBookUpdated) :
      Ends sent result events (.ok (sent.foldl PublishResult.count result))
  | refused (complete : ∀ send ∈ sent, send.complete = true) (fault : Fault) :
      Ends sent result events (.error (.encoder fault))
  | failed {front : List Send} {last : Send} (split : sent = front ++ [last])
      (complete : ∀ send ∈ front, send.complete = true) (incomplete : last.complete = false)
      {fault : PublishFault} (other : ∀ refusal, fault ≠ .encoder refusal) :
      Ends sent result events (.error fault)

section Loop
variable {endian : Endian} {network : Network} {publisher : MulticastPublisher}

theorem Ends.ignore {sent : List Send} {result : PublishResult} {events : List Event} {event : Event}
    (other : isBookUpdated event = false) {outcome : Except PublishFault PublishResult}
    (ends : Ends sent result events outcome) : Ends sent result (event :: events) outcome := by
  cases ends with
  | returned complete all => exact .returned complete (by rw [List.countP_cons_of_neg (by simp [other]), all])
  | refused complete fault => exact .refused complete fault
  | failed split complete incomplete other => exact .failed split complete incomplete other

theorem Ends.send {sent : List Send} {send : Send} {result : PublishResult} {events : List Event}
    {event : Event} (update : isBookUpdated event = true) (complete : send.complete = true)
    {outcome : Except PublishFault PublishResult}
    (ends : Ends sent (result.count send) events outcome) :
    Ends (send :: sent) result (event :: events) outcome := by
  cases ends with
  | returned others all =>
    rw [← List.foldl_cons]
    exact .returned (List.forall_mem_cons.mpr ⟨complete, others⟩)
      (by rw [List.countP_cons_of_pos update, List.length_cons, all])
  | refused others fault => exact .refused (List.forall_mem_cons.mpr ⟨complete, others⟩) fault
  | @failed front last split others incomplete fault other =>
    rw [split]
    have joined : send :: front ++ [last] = send :: (front ++ [last]) := List.cons_append
    exact .failed joined.symm (List.forall_mem_cons.mpr ⟨complete, others⟩) incomplete other

/-- The encoder makes datagrams of updates only. -/
theorem encoded_update {encoder after : FeedEncoder} {event : Event} {datagram : Option EncodedDatagram}
    (encoded : encoder.encode endian event = .ok (after, datagram)) :
    isBookUpdated event = datagram.isSome := by
  cases event with
  | bookUpdated instrument direction bestPrice totalSize =>
    cases datagram with
    | some datagram => rfl
    | none =>
      unfold FeedEncoder.encode at encoded
      simp only [bind, Except.bind, pure, Except.pure] at encoded
      split at encoded
      · cases encoded
      · split at encoded
        · cases encoded
        · split at encoded
          · cases encoded
          · cases encoded
  | _ => cases encoded; rfl

theorem publishEvents_ends (endian : Endian) (network : Network) (events : List Event)
    (publisher : MulticastPublisher) (result : PublishResult) :
    ∃ sent, (publishEvents endian network events publisher result).1.sends = publisher.sends ++ sent ∧
      Ends sent result events (publishEvents endian network events publisher result).2 := by
  induction events generalizing publisher result with
  | nil => exact ⟨[], (List.append_nil _).symm, .returned (List.forall_mem_nil _) rfl⟩
  | cons event events ih =>
    unfold publishEvents
    split
    next fault refused => exact ⟨[], (List.append_nil _).symm, .refused (List.forall_mem_nil _) fault⟩
    next encoder encoded =>
      obtain ⟨sent, sends, ends⟩ := ih { publisher with encoder } result
      exact ⟨sent, sends, ends.ignore (encoded_update encoded)⟩
    next encoder datagram encoded =>
      generalize answered : network publisher.sends.length = answer
      have one : ∀ fault : PublishFault, (∀ refusal, fault ≠ .encoder refusal) →
          ({ datagram, answer } : Send).complete = false →
          Ends [{ datagram, answer }] result (event :: events) (.error fault) :=
        fun fault other refused => .failed (List.nil_append _).symm (List.forall_mem_nil _) refused other
      cases answer with
      | threw what =>
        exact ⟨_, rfl, one (.socket what) (by simp) (by simp [Send.complete])⟩
      | sent bytesSent =>
        simp only
        split
        next short =>
          exact ⟨_, rfl, one (.runtimeError _) (by simp) (by simp [Send.complete, short])⟩
        next exact =>
          obtain rfl : bytesSent = datagram.bytes.length := not_not.mp exact
          obtain ⟨sent, sends, ends⟩ := ih
            { encoder, sends := publisher.sends ++ [{ datagram, answer := .sent datagram.bytes.length }] }
            (result.add datagram datagram.bytes.length)
          refine ⟨_ :: sent, by rw [sends, List.append_assoc, List.singleton_append], ?_⟩
          exact ends.send (encoded_update encoded) (by simp [Send.complete])

end Loop

/-- After any calls that came before it, a call of `publish` takes the next sequences. If it returns,
every send it made was complete, there was one for each book update, and the result says how many
they were, how long, and from which sequence to which; if a send was not complete it was the last
one and the call throws; and where the encoder refused an event, all sends before it were complete. -/
theorem publish_reports_its_sends (endian : Endian) (network : Network) (batches : List (List Event))
    (events : List Event) :
    let publisher := life endian network batches
    let (after, outcome) := publisher.publish endian network events
    ∃ sent, after.sends = publisher.sends ++ sent ∧
      sent.map (fun send => send.datagram.sequence.toNat) =
        List.range' (publisher.sends.length + 1) sent.length ∧
      match outcome with
      | .ok result => (∀ send ∈ sent, send.complete = true) ∧ sent.length = events.countP isBookUpdated ∧
          result =
            { messagesPublished := sent.length
              bytesSent := packetSize * sent.length
              firstSequence := (sent.head?.map fun send => send.datagram.sequence).getD 0
              lastSequence := (sent.getLast?.map fun send => send.datagram.sequence).getD 0 }
      | .error (.encoder _) => ∀ send ∈ sent, send.complete = true
      | .error _ => ∃ front last, sent = front ++ [last] ∧ (∀ send ∈ front, send.complete = true) ∧
          last.complete = false := by
  intro publisher
  have sequenced := life_sequenced endian network (batches ++ [events])
  unfold life at sequenced
  rw [List.foldl_concat] at sequenced
  change ((publishEvents endian network events publisher {}).1).Sequenced network at sequenced
  obtain ⟨sent, sends, ends⟩ := publishEvents_ends endian network events publisher {}
  unfold publish
  generalize publishEvents endian network events publisher {} = published at *
  obtain ⟨after, outcome⟩ := published
  simp only at sends ends ⊢
  have taken := sequenced.taken
  rw [sends, List.map_append, List.length_append, ← List.range'_append_1] at taken
  have before := (life_sequenced endian network batches).taken
  have numbers := (List.append_inj' taken (by simp)).2
  refine ⟨sent, sends, by rw [numbers, Nat.add_comm], ?_⟩
  cases ends with
  | returned complete all =>
    refine ⟨complete, all, ?_⟩
    have whole : ∀ send ∈ sent, send.datagram.bytes.length = packetSize := fun send member =>
      sequenced.whole send (by rw [sends]; exact List.mem_append_right _ member)
    rw [PublishResult.mk.injEq, PublishResult.messages_counted, PublishResult.bytes_counted _ whole,
      PublishResult.first_counted, PublishResult.last_counted]
    simp
  | refused complete fault => exact complete
  | failed split complete incomplete other =>
    split
    next same => cases same
    next refusal same => exact absurd (Except.error.inj same) (other refusal)
    next => exact ⟨_, _, split, complete, incomplete⟩

end MulticastPublisher
end MarketLab.MarketData
