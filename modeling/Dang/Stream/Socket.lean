import Dang.StringBuffer

/-!
# The destination of a socket

`_stream_parse_socket_dest` splits a string at the last colon in it, which it looks for from the end.
The number of bytes that are left to look at tells where the colon is, and is zero when there is
none.
-/

namespace Dang

/-- The character `':'` -/
def colon : Byte := 58

/-- The loop of `_stream_parse_socket_dest`: `node_len` when it ends, and where `serv` starts, if it
was set. -/
def searchColon (dest : Bytes) : ℕ → Outcome (ℕ × Option ℕ)
  | 0 => .ok (0, none)
  | nodeLen + 1 =>
      match dest[nodeLen]? with
      | none => .error .invalidAccess
      | some c => if c = colon then .ok (nodeLen, some (nodeLen + 1)) else searchColon dest nodeLen

/-- What the pointers that `_stream_parse_socket_dest` is given point at. -/
structure SocketDest where
  nodename : Option StringT
  servname : Option StringT
  deriving DecidableEq

/-- `_stream_parse_socket_dest` -/
def streamParseSocketDest (memory : ℕ → Memory) (dest : StringT) (outs : SocketDest) :
    Outcome (ℤ × SocketDest) := do
  Outcome.assertThat (3 ≤ dest.length)
  let (nodeLen, serv) ← searchColon dest.bytes dest.length
  let servLen := (serv.map (dest.length - ·)).getD 0
  if nodeLen = 0 ∨ servLen = 0 then .ok (-1, outs)
  else do
    let nodename ← StringT.alloc (memory 0) nodeLen (some dest.bytes)
    let servname ← StringT.alloc (memory 1) servLen (serv.map dest.bytes.drop)
    .ok (0, ⟨nodename, servname⟩)

/-- A node and a service, with a colon between them. The service has none. -/
structure Destination (dest node serv : Bytes) : Prop where
  dest_eq : dest = node ++ colon :: serv
  node_ne_nil : node ≠ []
  serv_ne_nil : serv ≠ []
  last : colon ∉ serv

variable {memory : ℕ → Memory} {dest : StringT} {bytes node serv : Bytes} {outs : SocketDest}

/-- What is behind the last colon is what can be read from the end without one. -/
theorem eq_of_last {front back otherFront otherBack : Bytes} (last : colon ∉ back)
    (otherLast : colon ∉ otherBack)
    (same : front ++ colon :: back = otherFront ++ colon :: otherBack) :
    front = otherFront ∧ back = otherBack := by
  have cut : ∀ front back : Bytes, colon ∉ back →
      (front ++ colon :: back).reverse.takeWhile (· ≠ colon) = back.reverse := by
    intro front back last
    rw [List.reverse_append, List.reverse_cons, List.append_assoc]
    rw [List.takeWhile_append_of_pos]
    · simp
    · intro byte mem
      have inside := List.mem_reverse.mp mem
      exact decide_eq_true fun isColon => last (isColon ▸ inside)
  have backs : back = otherBack := by
    apply List.reverse_injective
    rw [← cut front back last, same]
    exact cut otherFront otherBack otherLast
  subst backs
  exact ⟨List.append_cancel_right same, rfl⟩

theorem searchColon_of {bound : ℕ} (within : bound ≤ bytes.length) :
    (∃ front back, searchColon bytes bound = .ok (front.length, some (front.length + 1)) ∧
      bytes.take bound = front ++ colon :: back ∧ colon ∉ back) ∨
    searchColon bytes bound = .ok (0, none) ∧ colon ∉ bytes.take bound := by
  induction bound with
  | zero => exact Or.inr ⟨rfl, List.not_mem_nil⟩
  | succ bound ih =>
      have inside : bytes[bound]? = some bytes[bound] := List.getElem?_eq_getElem within
      have longer : bytes.take (bound + 1) = bytes.take bound ++ [bytes[bound]] := by
        rw [List.take_add_one, inside]
        rfl
      rw [searchColon, inside, longer]
      by_cases found : bytes[bound] = colon
      · left
        have length : (bytes.take bound).length = bound := by
          rw [List.length_take]
          exact Nat.min_eq_left (Nat.le_of_succ_le within)
        refine ⟨bytes.take bound, [], ?_, by rw [found], List.not_mem_nil⟩
        simp only [found, if_true, length]
      · simp only [found, if_false]
        rcases ih (Nat.le_of_succ_le within) with ⟨front, back, searched, split, last⟩ | ⟨searched, none⟩
        · refine Or.inl ⟨front, back ++ [bytes[bound]], searched, ?_, ?_⟩
          · rw [split]
            simp
          · intro mem
            rcases List.mem_append.mp mem with early | late
            · exact last early
            · exact found (List.mem_singleton.mp late).symm
        · refine Or.inr ⟨searched, ?_⟩
          intro mem
          rcases List.mem_append.mp mem with early | late
          · exact none early
          · exact found (List.mem_singleton.mp late).symm

/-- A destination is split into its node and its service. -/
theorem parse_of_destination (memory : ℕ → Memory) (outs : SocketDest) (holds : dest.Holds bytes)
    (long : 3 ≤ bytes.length) (splits : Destination bytes node serv) :
    streamParseSocketDest memory dest outs = (do
      let nodename ← StringT.alloc (memory 0) node.length (some node)
      let servname ← StringT.alloc (memory 1) serv.length (some serv)
      .ok (0, ⟨nodename, servname⟩)) := by
  have length := StringT.length_contents holds.length_le
  have contents : dest.bytes.take dest.length = node ++ colon :: serv :=
    holds.contents_eq.trans splits.dest_eq
  rw [holds.contents_eq] at length
  have nodePositive := List.length_pos_iff.mpr splits.node_ne_nil
  have servPositive := List.length_pos_iff.mpr splits.serv_ne_nil
  have total : dest.length = node.length + (serv.length + 1) := by
    rw [← length, splits.dest_eq, List.length_append, List.length_cons]
  rw [streamParseSocketDest, Outcome.assertThat_of (length ▸ long)]
  rcases searchColon_of holds.length_le with ⟨front, back, searched, split, last⟩ | ⟨_, none⟩
  · rcases eq_of_last last splits.last (split.symm.trans contents) with ⟨rfl, rfl⟩
    have left : dest.length - (front.length + 1) = back.length := by omega
    have nodePrefix : dest.bytes.take front.length = front := by
      have shorter := congrArg (List.take front.length) contents
      rw [List.take_take, List.take_left, Nat.min_eq_left (by omega)] at shorter
      exact shorter
    have servPrefix : (dest.bytes.drop (front.length + 1)).take back.length = back := by
      have dropped := congrArg (List.drop (front.length + 1)) contents
      rw [List.drop_take, left] at dropped
      rw [dropped, List.drop_append, List.drop_of_length_le (Nat.le_succ _)]
      simp
    have some : ¬(front.length = 0 ∨ back.length = 0) := by omega
    simp only [Outcome.ok_bind, searched, Option.map_some, Option.getD_some, left, some, if_false,
      StringT.alloc_prefix nodePrefix, StringT.alloc_prefix servPrefix]
  · rw [contents] at none
    exact absurd (List.mem_append_right node List.mem_cons_self) none

/-- What is no destination is not split, and leaves both outputs. -/
theorem parse_of_none (memory : ℕ → Memory) (outs : SocketDest) (holds : dest.Holds bytes)
    (long : 3 ≤ bytes.length) (none : ¬∃ node serv, Destination bytes node serv) :
    streamParseSocketDest memory dest outs = .ok (-1, outs) := by
  have length := StringT.length_contents holds.length_le
  have contents : dest.bytes.take dest.length = bytes := holds.contents_eq
  rw [holds.contents_eq] at length
  rw [streamParseSocketDest, Outcome.assertThat_of (length ▸ long)]
  rcases searchColon_of holds.length_le with ⟨front, back, searched, split, last⟩ | ⟨searched, _⟩
  · rw [contents] at split
    have total := congrArg List.length split
    rw [List.length_append, List.length_cons, length] at total
    have left : dest.length - (front.length + 1) = back.length := by omega
    have missing : front.length = 0 ∨ back.length = 0 := by
      by_contra some
      rw [not_or] at some
      refine none ⟨front, back, split, ?_, ?_, last⟩
      · exact List.length_pos_iff.mp (Nat.pos_of_ne_zero some.1)
      · exact List.length_pos_iff.mp (Nat.pos_of_ne_zero some.2)
    simp only [Outcome.ok_bind, searched, Option.map_some, Option.getD_some, left, missing, if_true]
  · simp [searched]

theorem Destination.length_lt (splits : Destination bytes node serv) (holds : dest.Holds bytes) :
    node.length < 2 ^ 63 ∧ serv.length < 2 ^ 63 := by
  have total := congrArg List.length splits.dest_eq
  rw [List.length_append, List.length_cons] at total
  have bound : bytes.length ≤ 2 ^ 63 := by
    rw [← holds.contents_eq, StringT.length_contents holds.length_le]
    exact Nat.le_trans holds.length_le holds.allocatedSize_le
  have nodePositive := List.length_pos_iff.mpr splits.node_ne_nil
  omega

/-- Parsing a destination succeeds exactly if it is a node and a service. It returns these if there
is storage for them, and otherwise leaves both outputs. -/
theorem socket_destination (memory : ℕ → Memory) (outs : SocketDest) (holds : dest.Holds bytes)
    (long : 3 ≤ bytes.length) :
    ((∃ after, streamParseSocketDest memory dest outs = .ok (0, after)) ↔
      ∃ node serv, Destination bytes node serv) ∧
    (∀ node serv, Destination bytes node serv →
      (memory 0).calloc 1 (sizeofStringT + nextupow2 node.length) = true →
      (memory 1).calloc 1 (sizeofStringT + nextupow2 serv.length) = true →
        ∃ nodename servname,
          streamParseSocketDest memory dest outs = .ok (0, ⟨some nodename, some servname⟩) ∧
            nodename.Holds node ∧ servname.Holds serv) ∧
    ((¬∃ node serv, Destination bytes node serv) →
      streamParseSocketDest memory dest outs = .ok (-1, outs)) := by
  refine ⟨⟨?_, ?_⟩, ?_, parse_of_none memory outs holds long⟩
  · rintro ⟨after, success⟩
    by_contra none
    rw [parse_of_none memory outs holds long none] at success
    cases success
  · rintro ⟨node, serv, splits⟩
    rcases StringT.alloc_returns (memory 0) (splits.length_lt holds).1 with ⟨nodename, first⟩
    rcases StringT.alloc_returns (memory 1) (splits.length_lt holds).2 with ⟨servname, second⟩
    refine ⟨⟨nodename, servname⟩, ?_⟩
    rw [parse_of_destination memory outs holds long splits, first, second]
    rfl
  · intro node serv splits first second
    rcases splits.length_lt holds with ⟨nodeSmall, servSmall⟩
    have nodeMade := StringT.alloc_some.mpr ⟨first, nodeSmall, rfl⟩
    have servMade := StringT.alloc_some.mpr ⟨second, servSmall, rfl⟩
    refine ⟨_, _, ?_, StringT.holds_alloc nodeSmall, StringT.holds_alloc servSmall⟩
    rw [parse_of_destination memory outs holds long splits, nodeMade, servMade]
    rfl

/-- The node of an address may have colons. -/
theorem socket_destination_sample : ∃ nodename servname,
    streamParseSocketDest (fun _ => .ample) ⟨ascii "::1:80\x00\x00", 6⟩ ⟨none, none⟩ =
      .ok (0, ⟨some nodename, some servname⟩) ∧
    nodename.Holds (ascii "::1") ∧ servname.Holds (ascii "80") := by
  have holds : StringT.Holds ⟨ascii "::1:80\x00\x00", 6⟩ (ascii "::1:80") :=
    ⟨by decide, by decide, by decide⟩
  have splits : Destination (ascii "::1:80") (ascii "::1") (ascii "80") :=
    ⟨by decide, by decide, by decide, by decide⟩
  have all := socket_destination (fun _ => .ample) ⟨none, none⟩ holds (by decide)
  exact all.2.1 _ _ splits (by decide) (by decide)

/-- Where there is no storage, it succeeds with null pointers. -/
theorem not_parse_exhausted :
    ¬∃ nodename servname,
      streamParseSocketDest (fun _ => .exhausted) ⟨ascii "a:b\x00", 3⟩ ⟨none, none⟩ =
        .ok (0, ⟨some nodename, some servname⟩) := by
  rintro ⟨nodename, servname, success⟩
  have null : streamParseSocketDest (fun _ => .exhausted) ⟨ascii "a:b\x00", 3⟩ ⟨none, none⟩ =
      .ok (0, ⟨none, none⟩) := by decide
  cases null.symm.trans success

end Dang
