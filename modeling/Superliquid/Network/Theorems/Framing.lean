import Superliquid.Network.Stream

namespace Superliquid.Wire

-- What one call of `send_data` puts on the stream.
def frame (data : List UInt8) : List UInt8 :=
  toBeBytes data.length ++ data

@[simp]
theorem toBeBytes_length : (toBeBytes n).length = lenBufLen := rfl

theorem fromBeBytes_toBeBytes (h : n < 2 ^ 32) : fromBeBytes (toBeBytes n) = n := by
  simp [toBeBytes, fromBeBytes]
  omega

@[simp]
theorem frame_length : (frame data).length = lenBufLen + data.length := by
  simp [frame]

section Sending

variable [AsyncWrite W] {w w' : W}

theorem sendData_written (hl : data.length < 2 ^ 32) (h : sendData w data = (.ok (), w')) :
    AsyncWrite.written w' = AsyncWrite.written w ++ frame data := by
  simp only [sendData, Nat.mod_eq_of_lt hl] at h
  split at h
  case h_1 => simp at h
  case h_2 w₁ h₁ =>
    split at h
    case h_1 => simp at h
    case h_2 w₂ h₂ =>
      rw [AsyncWrite.flush_ok h, AsyncWrite.writeAll_ok h₂, AsyncWrite.writeAll_ok h₁, List.append_assoc, frame]

theorem Sends.written (hl : ∀ p ∈ payloads, p.length < 2 ^ 32) (h : Sends w payloads w') :
    AsyncWrite.written w' = AsyncWrite.written w ++ payloads.flatMap frame := by
  induction h
  case nil => simp
  case cons hs _ hi =>
    have ⟨hd, hl⟩ := List.forall_mem_cons.mp hl
    rw [hi hl, sendData_written hd hs, List.flatMap_cons, List.append_assoc]

end Sending

section Receiving

variable [AsyncRead R] {r : R} {payloads : List (List UInt8)}

open AsyncRead (remaining)

-- The stream ends inside of the length, or before it.
theorem receiveData_header (h : (remaining r).length < lenBufLen) : (receiveData r).1 = .ok none := by
  have he := AsyncRead.readExact_eof h
  unfold receiveData
  split <;> simp_all

-- The length has been read; `rest` is what follows.
theorem receiveData_length (hn : n < 2 ^ 32) (h : remaining r = toBeBytes n ++ rest) :
    ∃ r' : R, remaining r' = rest ∧
      receiveData r = ((AsyncRead.readExact r' n).1.map some, (AsyncRead.readExact r' n).2) := by
  have hl : lenBufLen ≤ (remaining r).length := by simp [h]
  have hb := AsyncRead.readExact_ok hl
  have hr := AsyncRead.readExact_remaining hl
  rw [h, List.take_left' toBeBytes_length] at hb
  rw [h, List.drop_left' toBeBytes_length] at hr
  refine ⟨_, hr, ?_⟩
  unfold receiveData
  split
  case h_1 hx => simp [hx] at hb
  case h_2 hx => simp [hx] at hb
  case h_3 hx =>
    simp only [hx, Except.ok.injEq] at hb
    simp only [hx, hb, fromBeBytes_toBeBytes hn]
    split <;> simp_all [Except.map]

theorem receiveData_frame (hl : data.length < 2 ^ 32) (h : remaining r = frame data ++ rest) :
    (receiveData r).1 = .ok (some data) ∧ remaining (receiveData r).2 = rest := by
  rw [frame, List.append_assoc] at h
  have ⟨r', hr, hd⟩ := receiveData_length hl h
  have hn : data.length ≤ (remaining r').length := by simp [hr]
  have hb := AsyncRead.readExact_ok hn
  have hr' := AsyncRead.readExact_remaining hn
  rw [hr, List.take_left' rfl] at hb
  rw [hr, List.drop_left' rfl] at hr'
  rw [hd]
  exact ⟨by rw [hb]; rfl, hr'⟩

-- The stream ends inside of the payload.
theorem receiveData_payload (hn : n < 2 ^ 32) (h : remaining r = toBeBytes n ++ rest) (hr : rest.length < n) :
    (receiveData r).1 = .error .unexpectedEof := by
  have ⟨r', hr', hd⟩ := receiveData_length hn h
  have he := AsyncRead.readExact_eof (n := n) (r := r') (hr' ▸ hr)
  rw [hd, he]
  rfl

theorem receives_frame (hl : data.length < 2 ^ 32) (h : remaining r = frame data ++ rest) :
    ∃ r' : R, remaining r' = rest ∧ ∀ n, receives (n + 1) r = .ok (some data) :: receives n r' := by
  have ⟨hd, hr⟩ := receiveData_frame hl h
  exact ⟨_, hr, fun n => by rw [receives, hd]⟩

-- The payloads that fit before the cut come out whole. Of the next one there is either not even the
-- length, or the length and a part of the bytes.
inductive Cut (payloads : List (List UInt8)) (k i : Nat) : Except ErrorKind (Option (List UInt8)) → Prop
  | eof :
    (payloads.drop i = [] ∨ k < ((payloads.take i).flatMap frame).length + lenBufLen) →
    Cut payloads k i (.ok none)
  | incomplete :
    payloads[i]? = some data →
    ((payloads.take i).flatMap frame).length + lenBufLen ≤ k →
    k < ((payloads.take i).flatMap frame).length + (frame data).length →
    Cut payloads k i (.error .unexpectedEof)

theorem Cut.cons (h : Cut payloads k i last) :
    Cut (data :: payloads) ((frame data).length + k) (i + 1) last := by
  cases h
  case eof h =>
    refine .eof (h.imp (by simp) fun h => ?_)
    simp only [List.take_succ_cons, List.flatMap_cons, List.length_append]
    omega
  case incomplete hd h₁ h₂ =>
    refine .incomplete (by simpa using hd) ?_ ?_ <;>
      simp only [List.take_succ_cons, List.flatMap_cons, List.length_append] <;>
      omega

theorem receives_take (hl : ∀ p ∈ payloads, p.length < 2 ^ 32)
    (h : remaining r = (payloads.flatMap frame).take k) :
    ∃ i ≤ payloads.length, ∃ last, Cut payloads k i last ∧ ((payloads.take i).flatMap frame).length ≤ k ∧
      receives (i + 1) r = (payloads.take i).map (fun p => .ok (some p)) ++ [last] := by
  induction payloads generalizing r k
  case nil =>
    have hz : (receiveData r).1 = .ok none := receiveData_header (by simp [h, lenBufLen])
    exact ⟨0, by simp, .ok none, .eof (.inl rfl), by simp, by simp [receives, hz]⟩
  case cons data payloads hi =>
    have ⟨hd, hl⟩ := List.forall_mem_cons.mp hl
    rw [List.flatMap_cons] at h
    by_cases hk : (frame data).length ≤ k
    case pos =>
      obtain ⟨k, rfl⟩ := Nat.exists_eq_add_of_le hk
      rw [List.take_length_add_append] at h
      have ⟨r', hr, hs⟩ := receives_frame hd h
      have ⟨i, hil, last, hc, hle, he⟩ := hi hl hr
      refine ⟨i + 1, by simpa using hil, last, hc.cons, ?_, by simp [hs, he]⟩
      simp only [List.take_succ_cons, List.flatMap_cons, List.length_append]
      omega
    case neg =>
      rw [List.take_append_of_le_length (Nat.le_of_not_le hk)] at h
      by_cases hk' : k < lenBufLen
      case pos =>
        have hz : (receiveData r).1 = .ok none := receiveData_header (by simp [h]; omega)
        exact ⟨0, by simp, .ok none, .eof (.inr (by simpa using hk')), by simp, by simp [receives, hz]⟩
      case neg =>
        obtain ⟨k, rfl⟩ := Nat.exists_eq_add_of_le (Nat.le_of_not_lt hk')
        rw [frame, ← toBeBytes_length, List.take_length_add_append] at h
        have hlt : k < data.length := by simpa using hk
        have hz := receiveData_payload hd h (by simp; omega)
        refine ⟨0, by simp, .error .unexpectedEof, .incomplete rfl (by simp) ?_, by simp, by simp [receives, hz]⟩
        simpa using hlt

theorem receives_all (hl : ∀ p ∈ payloads, p.length < 2 ^ 32) (h : remaining r = payloads.flatMap frame) :
    receives (payloads.length + 1) r = payloads.map (fun p => .ok (some p)) ++ [.ok none] := by
  induction payloads generalizing r
  case nil =>
    have hz : (receiveData r).1 = .ok none := receiveData_header (by simp [h, lenBufLen])
    simp [receives, hz]
  case cons data payloads hi =>
    have ⟨hd, hl⟩ := List.forall_mem_cons.mp hl
    have ⟨r', hr, hs⟩ := receives_frame hd h
    simp [hs, hi hl hr]

end Receiving

theorem framing_lossless [AsyncWrite W] [AsyncRead R] {w w' : W} {payloads : List (List UInt8)}
    (hl : ∀ p ∈ payloads, p.length < 2 ^ 32) (hw : AsyncWrite.written w = []) (hs : Sends w payloads w') :
    (∀ r : R, AsyncRead.remaining r = AsyncWrite.written w' →
      receives (payloads.length + 1) r = payloads.map (fun p => .ok (some p)) ++ [.ok none]) ∧
    (∀ (r : R) (k : Nat), AsyncRead.remaining r = (AsyncWrite.written w').take k →
      ∃ i ≤ payloads.length, ∃ last, Cut payloads k i last ∧ ((payloads.take i).flatMap frame).length ≤ k ∧
        receives (i + 1) r = (payloads.take i).map (fun p => .ok (some p)) ++ [last]) := by
  have hb := hs.written hl
  rw [hw, List.nil_append] at hb
  exact ⟨fun r hr => receives_all hl (hb ▸ hr), fun r k hr => receives_take hl (hb ▸ hr)⟩

-- A pipe in memory, such as the tests use.
structure Pipe where
  bytes : List UInt8

instance : AsyncWrite Pipe where
  writeAll w data := (.ok (), ⟨w.bytes ++ data⟩)
  flush w := (.ok (), w)
  written w := w.bytes
  writeAll_ok h := by rw [← (Prod.mk.inj h).2]
  flush_ok h := by rw [← (Prod.mk.inj h).2]

instance : AsyncRead Pipe where
  readExact r n :=
    if n ≤ r.bytes.length then (.ok (r.bytes.take n), ⟨r.bytes.drop n⟩) else (.error .unexpectedEof, ⟨[]⟩)
  remaining r := r.bytes
  readExact_ok h := by simp [h]
  readExact_remaining h := by simp [h]
  readExact_eof h := by simp [Nat.not_le_of_lt h]

-- Two bytes and then none, cut inside of the first payload.
theorem framing_lossless_pipe :
    receives 3 (Pipe.mk [0, 0, 0, 2, 7, 8, 0, 0, 0, 0]) = [.ok (some [7, 8]), .ok (some []), .ok none] ∧
    ∃ i ≤ 2, ∃ last, Cut [[7, 8], []] 5 i last ∧
      receives (i + 1) (Pipe.mk [0, 0, 0, 2, 7]) = ([[7, 8], []].take i).map (fun p => .ok (some p)) ++ [last] := by
  have hs : Sends (Pipe.mk []) [[7, 8], []] (Pipe.mk [0, 0, 0, 2, 7, 8, 0, 0, 0, 0]) :=
    .cons rfl (.cons rfl .nil)
  obtain ⟨ha, hc⟩ := framing_lossless (R := Pipe) (by decide) rfl hs
  obtain ⟨i, hi, last, hl, -, he⟩ := hc ⟨[0, 0, 0, 2, 7]⟩ 5 rfl
  exact ⟨ha _ rfl, i, hi, last, hl, he⟩

end Superliquid.Wire
