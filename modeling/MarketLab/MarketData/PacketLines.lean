import MarketLab.MarketData.Listener

/-!
# The lines of packets

What `print_packet` prints of canonical packets tells them: where a line ends is known from the
line, so that an output is printed of one list of packets only.
-/
namespace MarketLab.MarketData
open MarketLab.Text

section Fields
variable {rest later : Bytes}

theorem sideName_append_inj {direction other : Side}
    (named : direction = .buy ∨ direction = .sell) (namedToo : other = .buy ∨ other = .sell)
    (same : sideName direction ++ rest = sideName other ++ later) :
    direction = other ∧ rest = later := by
  have differ : ∀ front back : Bytes, ascii "buy" ++ front ≠ ascii "sell" ++ back := by
    intro front back same
    have buy : (ascii "buy").head? = some 98 := by decide
    have sell : (ascii "sell").head? = some 115 := by decide
    have heads := congrArg List.head? same
    rw [List.head?_append, List.head?_append, buy, sell] at heads
    simp at heads
  rcases named with rfl | rfl <;> rcases namedToo with rfl | rfl
  · exact ⟨rfl, List.append_cancel_left same⟩
  · exact absurd same (differ _ _)
  · exact absurd same.symm (differ _ _)
  · exact ⟨rfl, List.append_cancel_left same⟩

/-- The price is a number or no number. -/
theorem bestPrice_append_inj {price other : Option UInt64} (stops : Stops isdigit rest)
    (stopsToo : Stops isdigit later)
    (same : (match price with | some price => decimal price.toNat | none => ascii "none") ++ rest =
      (match other with | some price => decimal price.toNat | none => ascii "none") ++ later) :
    price = other ∧ rest = later := by
  have word : ∀ back : Bytes, Stops isdigit (ascii "none" ++ back) := fun _ =>
    stops_append (by decide : (ascii "none").head? = some 110) rfl
  cases price with
  | none =>
    cases other with
    | none => exact ⟨rfl, List.append_cancel_left same⟩
    | some price => exact absurd same.symm (decimal_append_ne _ _ (word _))
  | some price =>
    cases other with
    | none => exact absurd same (decimal_append_ne _ _ (word _))
    | some other =>
      obtain ⟨numbers, texts⟩ := decimal_append_inj stops stopsToo same
      exact ⟨congrArg some (UInt64.toNat_inj.mp numbers), texts⟩

end Fields

/-- A line tells its packet, whatever is printed behind it. -/
theorem packetLine_append_inj {packet other : Packet} (canonical : packet.Canonical)
    (canonicalToo : other.Canonical) {rest later : Bytes}
    (same : packetLine packet ++ rest = packetLine other ++ later) :
    packet = other ∧ rest = later := by
  have blank : ∀ {label : Bytes}, label.head? = some 32 → ∀ text : Bytes,
      Stops isdigit (label ++ text) := fun first _ => stops_append first rfl
  have newline : ∀ text : Bytes, Stops isdigit (ascii "\n" ++ text) := fun _ =>
    stops_append (by decide : (ascii "\n").head? = some 10) rfl
  have aggregate : (ascii " aggregate_size=").head? = some 32 := by decide
  obtain ⟨sequence, ⟨instrument⟩, direction, bestPrice, aggregateSize⟩ := packet
  obtain ⟨sequence', ⟨instrument'⟩, direction', bestPrice', aggregateSize'⟩ := other
  simp only [packetLine, List.append_assoc] at same
  obtain ⟨sequences, same⟩ := decimal_append_inj (blank (by decide) _) (blank (by decide) _)
    (List.append_cancel_left same)
  obtain ⟨symbols, same⟩ := decimal_append_inj (blank (by decide) _) (blank (by decide) _)
    (List.append_cancel_left same)
  obtain ⟨directions, same⟩ :=
    sideName_append_inj canonical.2.2.1 canonicalToo.2.2.1 (List.append_cancel_left same)
  obtain ⟨prices, same⟩ := bestPrice_append_inj (blank aggregate _) (blank aggregate _)
    (List.append_cancel_left same)
  obtain ⟨sizes, ends⟩ := decimal_append_inj (newline _) (newline _) (List.append_cancel_left same)
  obtain rfl := UInt64.toNat_inj.mp sequences
  obtain rfl := UInt32.toNat_inj.mp symbols
  obtain rfl : direction = direction' := directions
  obtain rfl := prices
  obtain rfl := UInt64.toNat_inj.mp sizes
  exact ⟨rfl, List.append_cancel_left ends⟩

/-- The lines of canonical packets tell the packets and their order. -/
theorem packetLines_inj {packets others : List Packet}
    (canonical : ∀ packet ∈ packets, packet.Canonical)
    (canonicalToo : ∀ packet ∈ others, packet.Canonical)
    (same : packets.flatMap packetLine = others.flatMap packetLine) : packets = others := by
  have something : ∀ (packet : Packet) (rest : Bytes), packetLine packet ++ rest ≠ [] := by
    simp [packetLine, ascii]
  induction packets generalizing others with
  | nil =>
    cases others with
    | nil => rfl
    | cons other others => exact absurd same.symm (something other _)
  | cons packet packets ih =>
    cases others with
    | nil => exact absurd same (something packet _)
    | cons other others =>
      rw [List.forall_mem_cons] at canonical canonicalToo
      rw [List.flatMap_cons, List.flatMap_cons] at same
      obtain ⟨rfl, texts⟩ := packetLine_append_inj canonical.1 canonicalToo.1 same
      rw [ih canonical.2 canonicalToo.2 texts]

end MarketLab.MarketData
