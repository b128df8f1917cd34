import NetworkHomework.Qt.Server
import NetworkHomework.Qt.Client

/-!
# Texts from the client to the server

What `slot_send_to_server` writes for a list of texts, the server's slot reads back, wherever the
byte stream is cut. Between two calls the connection stands inside one frame, in front of its size
or inside its payload, and `next_block_size_` says which: `0` cannot be mistaken for a payload size,
because a payload has at least the four bytes of the string's own length.
-/

namespace NetworkHomework.Qt

open BigEndian

/-- Where the reader stands in a stream of the frames of `todo`: it holds a proper part of the first
frame's size, or the size has been taken and it holds a proper part of the payload. -/
def MidFrame : List QString → FrameReader → Prop
  | [], r => r.nextBlockSize = 0 ∧ r.rx = []
  | text :: _, r =>
      (r.nextBlockSize = 0 ∧ ∃ q, q ≠ [] ∧ toBytes 2 (writeQString text).length = r.rx ++ q) ∨
        (r.nextBlockSize.toNat = (writeQString text).length ∧ ∃ q, q ≠ [] ∧
          writeQString text = r.rx ++ q)

private theorem midFrame_header {text : QString} {r : FrameReader} {q : List UInt8}
    (hrx : r.rx.length < 2) (hframe : textFrame text = r.rx ++ q) :
    ∃ q', q' ≠ [] ∧ toBytes 2 (writeQString text).length = r.rx ++ q' := by
  rw [textFrame_eq, ← writeQString_length] at hframe
  rcases List.append_eq_append_iff.mp hframe with ⟨a, ha, _⟩ | ⟨a, ha, _⟩
  · have hlength := congrArg List.length ha
    simp only [List.length_append, toBytes_length] at hlength
    omega
  · refine ⟨a, ?_, ha⟩
    rintro rfl
    have hlength := congrArg List.length ha
    simp only [List.length_append, toBytes_length, List.length_nil] at hlength
    omega

private theorem midFrame_payload {text : QString} {size : UInt16} {rx q : List UInt8}
    (htext : FitsFrame text) (hframe : textFrame text = toBytes 2 size.toNat ++ rx ++ q) :
    size.toNat = (writeQString text).length ∧ writeQString text = rx ++ q := by
  have hsize := size.toNat_lt
  have hfit : text.size ≤ 32765 := htext
  rw [textFrame_eq, ← writeQString_length, List.append_assoc] at hframe
  obtain ⟨hheader, hpayload⟩ := List.append_inj hframe (by simp)
  refine ⟨(toBytes_inj ?_ (by omega) hheader).symm, hpayload⟩
  rw [writeQString_length]
  omega

theorem midFrame_of_waiting {todo : List QString} (htodo : ∀ text ∈ todo, FitsFrame text)
    {r : FrameReader} (hwaiting : r.Waiting) (hpart : ProperPart textFrame todo r.unread) :
    MidFrame todo r := by
  cases todo with
  | nil =>
      have hunread : r.unread = [] := hpart
      by_cases hzero : r.nextBlockSize = 0
      · rw [FrameReader.unread, if_pos hzero] at hunread
        exact ⟨hzero, hunread⟩
      · rw [FrameReader.unread_of_ne_zero hzero] at hunread
        have hlength := congrArg List.length hunread
        rw [List.length_append, toBytes_length] at hlength
        simp at hlength
  | cons text todo =>
      obtain ⟨q, hq, hframe⟩ := hpart
      by_cases hzero : r.nextBlockSize = 0
      · rw [FrameReader.unread, if_pos hzero] at hframe
        refine Or.inl ⟨hzero, midFrame_header ?_ hframe⟩
        rcases hwaiting with ⟨_, hshort⟩ | hshort
        · exact hshort
        · rw [hzero] at hshort
          exact absurd hshort (Nat.not_lt_zero _)
      · rw [FrameReader.unread_of_ne_zero hzero] at hframe
        obtain ⟨hsize, hpayload⟩ := midFrame_payload (htodo text (by simp)) hframe
        exact Or.inr ⟨hsize, q, hq, hpayload⟩

/-- **Client to server.** However the bytes of a list of texts are cut into `readyRead`s, the server
reads exactly these texts, in order, and after every call it has read the first of them and stands
inside the frame of the next. -/
theorem requests_round_trip (edition : Edition) (currentPath : List UInt16) (texts : List QString)
    (hfit : ∀ text ∈ texts, text.size ≤ 32765) (ds : List Delivery)
    (hcut : (ds.map (·.bytes)).flatten = (texts.foldl TcpClient.slotSendToServer .start).tx) :
    requestsOf (calls edition currentPath ds).out.txt = texts ∧
      ∀ done rest, ds = done ++ rest →
        ∃ todo, texts = requestsOf (calls edition currentPath done).out.txt ++ todo ∧
          (calls edition currentPath done).reader.unread ++ (rest.map (·.bytes)).flatten =
            stream textFrame todo ∧
          MidFrame todo (calls edition currentPath done).reader := by
  rw [TcpClient.slotSendToServer_tx] at hcut
  have hstream : (ds.map (·.bytes)).flatten = stream textFrame texts := hcut
  constructor
  · obtain ⟨_, hrequests, _⟩ := calls_spec edition currentPath ds
    rw [hrequests, frameDecoder_decodes.feedAll_stream hfit hstream]
  · intro done rest hsplit
    subst hsplit
    obtain ⟨hunread, hrequests, hwaiting⟩ := calls_spec edition currentPath done
    rw [List.map_append, List.flatten_append] at hstream
    obtain ⟨todo, htexts, htodo, hpart⟩ := frameDecoder_decodes.feedAll_spec hfit hstream
    rw [← hunread] at htodo hpart
    rw [← hrequests] at htexts
    refine ⟨todo, htexts, htodo, midFrame_of_waiting (fun text htext => hfit text ?_) hwaiting hpart⟩
    rw [htexts]
    exact List.mem_append_right _ htext

/-- The frame of `hi`, cut inside its size and inside its payload. -/
theorem requests_round_trip_hi :
    requestsOf (calls .hw5 [] [⟨[0], fun _ => noFiles⟩, ⟨[8, 0, 0, 0, 4, 0], fun _ => noFiles⟩,
      ⟨[0x68, 0, 0x69], fun _ => noFiles⟩]).out.txt = [.lit "hi"] :=
  (requests_round_trip .hw5 [] [.lit "hi"] (by decide) [⟨[0], fun _ => noFiles⟩,
    ⟨[8, 0, 0, 0, 4, 0], fun _ => noFiles⟩, ⟨[0x68, 0, 0x69], fun _ => noFiles⟩] (by decide)).1

end NetworkHomework.Qt
