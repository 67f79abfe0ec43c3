/-
  Divachain.Net.Pack — a message survives its datagram.

  `pack` deflates the JSON of a message, writes it in base64url and puts a
  version before it and a signature behind it, separated by semicolons; the
  signature is over the encoded text.  `_unpack` takes that apart with a
  pattern.  The two meet because neither part has a semicolon in it, because
  what is not empty stays so when it is deflated, and because a signature has
  no padding.

  Main results:
    * `matchDatagram_frame` — the pattern finds the two parts;
    * `messages_round_trip` — what the owner of its origin has packed is
      unpacked to the same value.
-/
import Divachain.Lib.Utf8
import Divachain.Lib.Dynamic
import Divachain.Chain.TableCrypto
import Divachain.Net.Wire

namespace Divachain

open DataKit

/-! ## §1. `pack`. -/

/-- The libraries that `pack` and `_unpack` call; `none` where one throws. -/
structure Packer where
  /-- `base64url.stringify`, with padding. -/
  stringify : Bytes → Text
  /-- `base64url.parse`. -/
  parse : Text → Option Bytes
  deflateRaw : Bytes → Bytes
  inflateRaw : Bytes → Option Bytes
  /-- `JSON.parse`. -/
  jsonParse : Text → Option Json
  verifyOther : Json → Text → Text → Bool

namespace Packer

/-- What `_unpack` sees of them. -/
def codec (p : Packer) : Codec where
  inflate message := (p.parse message).bind p.inflateRaw
  jsonParse := p.jsonParse
  verifyOther := p.verifyOther

/-- `base64url.stringify(zlib.deflateRawSync(JSON.stringify(message)))`. -/
def encode (p : Packer) (message : Json) : Text :=
  p.stringify (p.deflateRaw (encodeUtf8 message.stringify))

/-- **What the libraries promise**: base64url and deflate are undone by their
inverses, and base64url has its alphabet; a deflated text is never empty. -/
structure Inverse (p : Packer) : Prop where
  base64url : ∀ b, p.parse (p.stringify b) = some b
  base64url_nil : p.parse [] = some []
  alphabet : ∀ b, ∀ c ∈ p.stringify b, isBase64Url c = true ∨ c = '='
  deflate : ∀ b, p.inflateRaw (p.deflateRaw b) = some b
  deflate_ne_nil : ∀ b, p.deflateRaw b ≠ []

end Packer

/-- Version, payload and signature as `pack` writes them. -/
def frame (version : Nat) (s sig : Text) : Text :=
  natText version ++ ';' :: (s ++ ';' :: (sig ++ ['\n']))

/-- `pack(wallet, version)`, where the wallet has this public key; `none` where
it throws. -/
def pack (crypto : Crypto) (p : Packer) (publicKey : Text) (version : Nat) (message : Json) :
    Option Bytes :=
  let s := p.encode message
  if version = VERSION_4 then some (encodeUtf8 (frame version s (crypto.sign publicKey s)))
  else none

/-! ## §2. The frame. -/

/-- The alphabet has no white space. -/
theorem isBlank_of_isBase64Url {c : Char} (h : isBase64Url c = true) : isBlank c = false := by
  rw [← Bool.not_eq_true]
  intro hblank
  simp only [isBase64Url, Bool.or_eq_true, beq_iff_eq] at h
  rcases h with (halphanum | rfl) | rfl
  · simp only [isBlank, Bool.or_eq_true, decide_eq_true_eq, List.contains_eq_mem, List.mem_cons,
      List.not_mem_nil, or_false] at hblank
    change (decide ('A'.val ≤ c.val ∧ c.val ≤ 'Z'.val)
      || (decide ('a'.val ≤ c.val) && decide (c.val ≤ 'z'.val))
      || (decide ('0'.val ≤ c.val) && decide (c.val ≤ '9'.val))) = true at halphanum
    simp only [Bool.or_eq_true, Bool.and_eq_true, decide_eq_true_eq] at halphanum
    have hrange : (65 ≤ c.toNat ∧ c.toNat ≤ 90 ∨ 97 ≤ c.toNat ∧ c.toNat ≤ 122)
        ∨ 48 ≤ c.toNat ∧ c.toNat ≤ 57 := halphanum
    omega
  · exact absurd hblank (by decide)
  · exact absurd hblank (by decide)

theorem isBase64Url_ne_semicolon {c : Char} (h : isBase64Url c = true) : c ≠ ';' := by
  rintro rfl
  exact absurd h (by decide)

/-- What starts and ends with something is trimmed of the line feed only. -/
theorem trim_append_newline {t : Text} {first last : Char} (hfirst : t.head? = some first)
    (hlast : t.getLast? = some last) (hf : isBlank first = false) (hl : isBlank last = false) :
    trim (t ++ ['\n']) = t := by
  obtain ⟨u, rfl⟩ := List.head?_eq_some_iff.mp hfirst
  obtain ⟨w, hw⟩ := List.getLast?_eq_some_iff.mp hlast
  have hblank : isBlank '\n' = true := by decide
  have hfront : ((first :: u) ++ ['\n']).dropWhile isBlank = (first :: u) ++ ['\n'] := by
    rw [List.cons_append, List.dropWhile_cons, if_neg (by rw [hf]; exact Bool.false_ne_true)]
  rw [trim, hfront, List.reverse_append, List.reverse_singleton, List.singleton_append,
    List.dropWhile_cons, if_pos hblank, hw, List.reverse_append, List.reverse_singleton,
    List.singleton_append, List.dropWhile_cons, if_neg (by rw [hl]; exact Bool.false_ne_true),
    List.reverse_cons, List.reverse_reverse]

/-- **The pattern finds what `pack` has put together.** -/
theorem matchDatagram_frame {s sig : Text} (hs : s ≠ [])
    (halphabet : ∀ c ∈ s, isBase64Url c = true ∨ c = '=') (hsig : isSigText sig = true) :
    matchDatagram (trim (frame VERSION_4 s sig)) = some (['4'], s, sig) := by
  have hchars : ∀ c ∈ sig, isBase64Url c = true := by
    unfold isSigText matchesRun at hsig
    rw [Bool.and_eq_true, Bool.and_eq_true, List.all_eq_true] at hsig
    exact hsig.1.1
  have hlength : sig ≠ [] := by
    rintro rfl
    exact absurd hsig (by decide)
  have hlast : isBlank (sig.getLast hlength) = false :=
    isBlank_of_isBase64Url (hchars _ (List.getLast_mem hlength))
  have htrim : trim (frame VERSION_4 s sig) = '4' :: ';' :: (s ++ ';' :: sig) := by
    have happend : frame VERSION_4 s sig = ('4' :: ';' :: (s ++ ';' :: sig)) ++ ['\n'] := by
      unfold frame
      rw [List.cons_append, List.cons_append, List.append_assoc, List.cons_append]
      rfl
    rw [happend]
    refine trim_append_newline rfl ?_ (by decide) hlast
    have hend : '4' :: ';' :: (s ++ ';' :: sig) = ('4' :: ';' :: (s ++ [';'])) ++ sig := by
      rw [List.cons_append, List.cons_append, List.append_assoc, List.singleton_append]
    rw [hend, List.getLast?_append_of_ne_nil _ hlength, List.getLast?_eq_some_getLast hlength]
  have hsplit : ('4' :: ';' :: (s ++ ';' :: sig)).splitOn ';' = [['4'], s, sig] := by
    have hno : ∀ l ∈ [['4'], s, sig], ';' ∉ l := by
      intro l hl hmem
      rcases List.mem_cons.mp hl with rfl | hl
      · exact absurd hmem (by decide)
      rcases List.mem_cons.mp hl with rfl | hl
      · rcases halphabet ';' hmem with h | h
        · exact isBase64Url_ne_semicolon h rfl
        · exact absurd h (by decide)
      · obtain rfl := List.mem_singleton.mp hl
        exact isBase64Url_ne_semicolon (hchars ';' hmem) rfl
    have hjoin := List.splitOn_intercalate ';' hno (List.cons_ne_nil _ _)
    rw [← hjoin]
    congr 1
    simp [List.intercalate, List.intersperse]
  rw [htrim, matchDatagram, hsplit]
  exact if_pos ⟨List.cons_ne_nil _ _, by decide, hs, hsig⟩

/-! ## §3. The round trip. -/

section

variable {crypto : Crypto} {p : Packer} {publicKey : Text}

theorem encode_ne_nil (hp : p.Inverse) (message : Json) : p.encode message ≠ [] := by
  intro hnil
  have hparse : p.parse (p.encode message) = _ := hp.base64url _
  rw [hnil, hp.base64url_nil] at hparse
  exact hp.deflate_ne_nil _ (Option.some.inj hparse).symm

/-- What has been deflated is inflated again. -/
theorem inflate_encode (hp : p.Inverse) (message : Json) :
    p.codec.inflate (p.encode message) = some (encodeUtf8 message.stringify) := by
  show (p.parse (p.encode message)).bind p.inflateRaw = _
  rw [Packer.encode, hp.base64url, Option.bind_some, hp.deflate]

/-- **`_unpack` finds its way back** through all that `pack` has done. -/
theorem unpacks_pack (hp : p.Inverse) (hcorrect : crypto.SignCorrect) (hkey : publicKey ≠ [])
    (hsig : ∀ d, isSigText (crypto.sign publicKey d) = true) {message : Json}
    (horigin : Json.read WireField.origin.name (some message) = some (some (.str publicKey)))
    (hsurvives : p.jsonParse message.stringify = some message) :
    ∃ data, pack crypto p publicKey VERSION_4 message = some data
      ∧ unpacked crypto p.codec data = some message := by
  have hpack : pack crypto p publicKey VERSION_4 message = some (encodeUtf8
      (frame VERSION_4 (p.encode message) (crypto.sign publicKey (p.encode message)))) := by
    unfold pack
    exact if_pos rfl
  refine ⟨_, hpack, ?_⟩
  refine unpacked_eq_some_iff.mpr ⟨p.encode message, crypto.sign publicKey (p.encode message),
    encodeUtf8 message.stringify, .str publicKey, ?_, inflate_encode hp message, ?_, horigin, ?_, ?_⟩
  · refine ⟨['4'], ?_, by decide⟩
    rw [decodeUtf8_encodeUtf8]
    exact matchDatagram_frame (encode_ne_nil hp message) (hp.alphabet _) (hsig _)
  · rw [decodeUtf8_encodeUtf8]
    exact hsurvives
  · show (!publicKey.isEmpty) = true
    rw [Bool.not_eq_true', List.isEmpty_eq_false_iff]
    exact hkey
  · exact hcorrect publicKey (p.encode message)

/-- **Messages round-trip.**  Whatever value survives JSON and names the wallet
as its origin is unpacked from its own datagram, and so is every message of
the five kinds. -/
theorem messages_round_trip (hp : p.Inverse) (hcorrect : crypto.SignCorrect)
    (hkey : publicKey ≠ []) (hsig : ∀ d, isSigText (crypto.sign publicKey d) = true) :
    (∀ message : Json,
      Json.read WireField.origin.name (some message) = some (some (.str publicKey)) →
      p.jsonParse message.stringify = some message →
        (pack crypto p publicKey VERSION_4 message).map (unpack crypto p.codec) = some message)
    ∧ ∀ m : Message, m.origin = publicKey → m.data.WellKeyed →
      p.jsonParse m.toJson.stringify = some m.toJson →
        ((pack crypto p publicKey VERSION_4 m.toJson).map (unpack crypto p.codec)).bind
          Message.ofJson = some m := by
  have hunpack : ∀ message : Json,
      Json.read WireField.origin.name (some message) = some (some (.str publicKey)) →
      p.jsonParse message.stringify = some message →
        (pack crypto p publicKey VERSION_4 message).map (unpack crypto p.codec) = some message := by
    intro message horigin hsurvives
    obtain ⟨data, hpack, hback⟩ := unpacks_pack hp hcorrect hkey hsig horigin hsurvives
    rw [hpack, Option.map_some, unpack, hback, Option.getD_some]
  refine ⟨hunpack, ?_⟩
  intro m hm hkeyed hsurvives
  have horigin : Json.read WireField.origin.name (some m.toJson) = some (some (.str publicKey)) := by
    rw [← hm]
    rfl
  rw [hunpack m.toJson horigin hsurvives, Option.bind_some, Message.ofJson_toJson hkeyed]

end

/-! ## §4. A status message. -/

def statusMessage : Message := { seq := 1, origin := keyOf 0, dest := [], data := .status 1 1 }

/-- The deflated JSON of this message. -/
def statusDeflated : Bytes :=
  [171, 86, 42, 78, 45, 84, 178, 50, 212, 81, 202, 47, 202, 76, 207, 204, 83, 178, 82, 50, 240,
    246, 241, 245, 243, 15, 8, 12, 10, 14, 9, 13, 11, 143, 136, 140, 74, 76, 74, 78, 73, 77, 75,
    207, 200, 204, 202, 206, 201, 205, 203, 47, 40, 44, 42, 46, 41, 45, 43, 175, 168, 172, 82,
    210, 81, 74, 73, 45, 46, 1, 106, 2, 177, 18, 75, 18, 149, 172, 170, 149, 74, 42, 11, 82, 149,
    172, 76, 117, 148, 138, 75, 18, 75, 74, 139, 193, 134, 103, 164, 102, 166, 103, 0, 213, 25,
    214, 214, 2, 0]

/-- The same in base64url. -/
def statusWire : Text :=
  "q1YqTi1UsjLUUcovykzPzFOyUjLw9vH18w8IDAoOCQ0Lj4iMSkxKTklNS8_IzMrOyc3LLygsKi4pLSuv".toList
    ++ "qKxS0lFKSS0uAWoCsRJLEpWsqpVKKgtSlaxMdZSKSxJLSovBhmekZqZnANUZ1tYCAA==".toList

theorem statusWire_alphabet : ∀ c ∈ statusWire, isBase64Url c = true ∨ c = '=' := by
  have hall : statusWire.all (fun c => isBase64Url c || c == '=') = true := by decide +kernel
  intro c hc
  simpa using List.all_eq_true.mp hall c hc

/-- The hexadecimal digits of some bytes, and the bytes of some digits. -/
def hexText (b : Bytes) : Text :=
  b.flatMap fun x => [hexDigit (x.toNat / 16), hexDigit (x.toNat % 16)]

def hexBytes : Text → Bytes
  | h :: l :: t => UInt8.ofNat (hexValue h * 16 + hexValue l) :: hexBytes t
  | _ => []

theorem hexBytes_hexText (b : Bytes) : hexBytes (hexText b) = b := by
  induction b with
  | nil => rfl
  | cons x b ih =>
    have hlt : x.toNat < 256 := x.toNat_lt
    have hvalue : hexValue (hexDigit (x.toNat / 16)) * 16 + hexValue (hexDigit (x.toNat % 16))
        = x.toNat := by
      rw [hexValue_hexDigit _ (by omega), hexValue_hexDigit _ (by omega)]
      omega
    show UInt8.ofNat _ :: hexBytes (hexText b) = _
    rw [hvalue, ih, UInt8.ofNat_toNat]

/-- Base64url for this message; all other bytes get a mark that is taken off again. -/
def statusStringify (b : Bytes) : Text := if b = statusDeflated then statusWire else '-' :: hexText b

def statusParse (t : Text) : Option Bytes :=
  if t = statusWire then some statusDeflated
  else
    match t with
    | [] => some []
    | '-' :: t => some (hexBytes t)
    | _ => none

theorem statusParse_statusStringify (b : Bytes) : statusParse (statusStringify b) = some b := by
  unfold statusStringify
  split
  next hb =>
    subst hb
    exact if_pos rfl
  next =>
    have hmark : '-' :: hexText b ≠ statusWire := fun h => absurd (List.cons.inj h).1 (by decide)
    rw [statusParse, if_neg hmark]
    exact congrArg some (hexBytes_hexText b)

theorem statusStringify_alphabet (b : Bytes) :
    ∀ c ∈ statusStringify b, isBase64Url c = true ∨ c = '=' := by
  have hhex : ∀ n < 16, isBase64Url (hexDigit n) = true := by decide
  unfold statusStringify
  split
  · exact statusWire_alphabet
  · intro c hc
    refine Or.inl ?_
    rcases List.mem_cons.mp hc with rfl | hc
    · decide
    · obtain ⟨x, -, hx⟩ := List.mem_flatMap.mp hc
      have hlt : x.toNat < 256 := x.toNat_lt
      rcases List.mem_cons.mp hx with rfl | hx
      · exact hhex _ (by omega)
      · obtain rfl := List.mem_singleton.mp hx
        exact hhex _ (by omega)

/-- Deflate for this message; all other bytes get a mark again. -/
def statusDeflate (b : Bytes) : Bytes :=
  if b = encodeUtf8 statusMessage.toJson.stringify then statusDeflated else 0 :: b

def statusInflate (b : Bytes) : Option Bytes :=
  if b = statusDeflated then some (encodeUtf8 statusMessage.toJson.stringify)
  else
    match b with
    | 0 :: b => some b
    | _ => none

theorem statusInflate_statusDeflate (b : Bytes) : statusInflate (statusDeflate b) = some b := by
  unfold statusDeflate statusInflate
  split
  next hb => rw [if_pos rfl, hb]
  next =>
    have hmark : 0 :: b ≠ statusDeflated := fun h => absurd (List.cons.inj h).1 (by decide)
    rw [if_neg hmark]
    rfl

def statusPacker : Packer where
  stringify := statusStringify
  parse := statusParse
  deflateRaw := statusDeflate
  inflateRaw := statusInflate
  jsonParse t := if t = statusMessage.toJson.stringify then some statusMessage.toJson else none
  verifyOther _ _ _ := false

theorem statusPacker_inverse : statusPacker.Inverse := by
  refine ⟨statusParse_statusStringify, by decide +kernel, statusStringify_alphabet,
    statusInflate_statusDeflate, ?_⟩
  intro b
  show statusDeflate b ≠ []
  unfold statusDeflate
  split
  · exact List.cons_ne_nil _ _
  · exact List.cons_ne_nil _ _

def statusCrypto : Crypto where
  hash _ := []
  sign _ _ := label 86 0
  verifySignature _ sig _ := decide (sig = label 86 0)

theorem statusCrypto_signCorrect : statusCrypto.SignCorrect := by
  intro _ _
  show decide (label 86 0 = label 86 0) = true
  exact decide_eq_true rfl

theorem messages_round_trip_of_sample :
    ((pack statusCrypto statusPacker (keyOf 0) VERSION_4 statusMessage.toJson).map
      (unpack statusCrypto statusPacker.codec)).bind Message.ofJson = some statusMessage := by
  have hsig : ∀ d, isSigText (statusCrypto.sign (keyOf 0) d) = true := by
    intro d
    show isSigText (label 86 0) = true
    decide +kernel
  have hsurvives : statusPacker.jsonParse statusMessage.toJson.stringify
      = some statusMessage.toJson := by simp [statusPacker]
  exact (messages_round_trip statusPacker_inverse statusCrypto_signCorrect (by decide +kernel)
    hsig).2 statusMessage rfl trivial hsurvives

end Divachain
