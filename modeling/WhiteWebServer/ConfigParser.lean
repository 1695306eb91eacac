import WhiteWebServer.CString

/-!
# `proxy_pass`

The address of the backend in a configuration file. §1 what `Parse` reads and what it yields;
§2 the code; §3 the values of `proxy_pass` and what each stands for; §4 which of them are
parsed to that.

A pointer `host_str` outlives the string it points into: what is read through it is not in
the code's hands, and is a parameter.
-/

namespace WhiteWebServer

open Outcome

namespace ConfigParser

/-! ## §1  Documents and configurations -/

/-- An `in_addr`, as its bytes stand in memory. -/
structure InAddr where
  a : Byte
  b : Byte
  c : Byte
  d : Byte
  deriving DecidableEq

def inaddrAny : InAddr := ⟨0, 0, 0, 0⟩

/-- An `in_port_t`, as its bytes stand in memory. -/
structure InPort where
  high : Byte
  low : Byte
  deriving DecidableEq

/-- `htons`; its argument is converted to 16 bits. -/
def htons (n : Int) : InPort :=
  ⟨UInt8.ofNat (n / 256 % 256).toNat, UInt8.ofNat (n % 256).toNat⟩

def ntohs (port : InPort) : Nat := port.high.toNat * 256 + port.low.toNat

theorem ntohs_htons {n : Nat} (hn : n < 65536) : ntohs (htons n) = n := by
  have hhigh : (UInt8.ofNat ((n : Int) / 256 % 256).toNat).toNat = n / 256 := by
    rw [UInt8.toNat_ofNat_of_lt'] <;> (try show _ < 256) <;> omega
  have hlow : (UInt8.ofNat ((n : Int) % 256).toNat).toNat = n % 256 := by
    rw [UInt8.toNat_ofNat_of_lt'] <;> (try show _ < 256) <;> omega
  rw [ntohs, htons, hhigh, hlow]
  omega

/-- The members of the document that `Parse` reads, with the types it reads them as. A member
that is not there is `none`; for those with `operator[]`, so is a null. -/
structure Document where
  listen : Option Bytes
  port : Option Int
  logPath : Option Bytes
  root : Option Bytes
  timeout : Option Int
  proxyPass : Option Bytes
  index : Option (List Bytes)

/-- `addr_` and `port_` are indeterminate (`none`) until something is stored. -/
structure ProxyConfig where
  protocol : Bytes
  addr : Option InAddr
  port : Option InPort
  path : Bytes
  host : Bytes
  deriving DecidableEq

def ProxyConfig.new : ProxyConfig :=
  { protocol := [], addr := none, port := none, path := [], host := [] }

structure Config where
  port : InPort
  address : Option InAddr
  webRoot : Bytes
  logDir : Bytes
  timeout : Int
  isProxy : Bool
  proxyConfig : ProxyConfig
  indexFile : List Bytes

/-- How `Parse` ends otherwise than by a return. -/
inductive Stop
  /-- `exit(1)` behind a message -/
  | exit (msg : String)
  /-- a C++ exception that `Parse` does not catch -/
  | thrown
  /-- a read in memory that is no longer there -/
  | dangling
  deriving DecidableEq

/-- What is outside of the code. -/
structure Surroundings where
  /-- the first address of the answer; `none` if it is null -/
  gethostbyname : Bytes → Option InAddr
  /-- `none` if it does not return 1 -/
  inetPton : Bytes → Option InAddr
  /-- the C string that a pointer gives when it is read for the `n`-th time, if it was taken
  from a string of these bytes that is destroyed by then; `none` if the read fails -/
  destroyed : Nat → Bytes → Option Bytes

/-! ## §2  `Parse` -/

def parseErrorHanding {α : Type} (msg : String) : Except Stop α := .error (.exit msg)

/-- `s.find(c, pos)`; `none` is `npos`. -/
def find (s : Bytes) (c : Byte) (pos : Nat) : Option Nat :=
  ((s.drop pos).findIdx? (· == c)).map (pos + ·)

/-- `s.substr(pos)` -/
def substr (s : Bytes) (pos : Nat) : Except Stop Bytes :=
  if pos ≤ s.length then .ok (s.drop pos) else .error .thrown

/-- `stoi` throws what `Parse` does not catch. -/
def toPort (s : Bytes) : Except Stop InPort :=
  match stoi s with
  | .ok n => .ok (htons n)
  | .error _ => .error .thrown

def readDestroyed (w : Surroundings) (n : Nat) (s : Bytes) : Except Stop Bytes :=
  match w.destroyed n s with
  | some t => .ok t
  | none => .error .dangling

/-- The protocol, in front of the first `:`. -/
def protocolOf (origin : Bytes) (protocolEnd : Nat) : Except Stop Bytes :=
  if protocolEnd = 4 ∧ strcasecmpEq (origin.take 4) (ascii "http") then .ok (ascii "http")
  else if protocolEnd = 5 ∧ strcasecmpEq (origin.take 5) (ascii "https") then .ok (ascii "https")
  else parseErrorHanding "Proxy pass config error!"

/-- `host_str` is the `c_str()` of a string that is destroyed on the same line. -/
def resolveHost (w : Surroundings) (hostStr : Bytes) (proxy : ProxyConfig) :
    Except Stop ProxyConfig := do
  let host ← readDestroyed w 0 hostStr
  let proxy := { proxy with host := host }
  let name ← readDestroyed w 1 hostStr
  match w.gethostbyname name with
  | some addr => return { proxy with addr := some addr }
  | none => do
      let name ← readDestroyed w 2 hostStr
      match w.inetPton name with
      | some addr => return { proxy with addr := some addr }
      | none => parseErrorHanding "Proxy pass config error!"

/-- The part up to the next `:`, and where it ends. Without a `:` the port is the protocol's, and
no host is looked up. -/
def parseAddr (w : Surroundings) (origin : Bytes) (addrStart : Nat) (proxy : ProxyConfig) :
    Except Stop (ProxyConfig × Nat) :=
  match find origin colon addrStart with
  | none =>
      let proxy :=
        { proxy with port := some (htons (if proxy.protocol = ascii "http" then 80 else 443)) }
      match find origin slash addrStart with
      | none => .ok ({ proxy with path := ascii "/" }, origin.length)
      | some addrEnd => .ok (proxy, addrEnd)
  | some addrEnd => do
      let rest ← substr origin addrStart
      let proxy ← resolveHost w (rest.take (addrEnd - addrStart)) proxy
      return (proxy, addrEnd)

/-- The port up to the next `/`, and the path. -/
def parsePort (origin : Bytes) (addrEnd : Nat) (proxy : ProxyConfig) : Except Stop ProxyConfig :=
  match find origin slash addrEnd with
  | none => do
      let rest ← substr origin (addrEnd + 1)
      let port ← toPort rest
      return { proxy with port := some port, path := ascii "/" }
  | some portEnd =>
      if portEnd ≠ addrEnd then do
        let rest ← substr origin (addrEnd + 1)
        let port ← toPort (rest.take (portEnd - addrEnd - 1))
        let path ← substr origin portEnd
        return { proxy with port := some port, path := path }
      else .ok proxy

def parseProxyPass (w : Surroundings) (origin : Bytes) : Except Stop ProxyConfig :=
  match find origin colon 0 with
  | none => parseErrorHanding "Proxy pass config error!"
  | some protocolEnd => do
      let protocol ← protocolOf origin protocolEnd
      let (proxy, addrEnd) ←
        parseAddr w origin (protocolEnd + 3) { ProxyConfig.new with protocol := protocol }
      parsePort origin addrEnd proxy

def listenAddress (w : Surroundings) (address : Bytes) : Option InAddr :=
  if address = ascii "0.0.0.0" ∨ address = ascii "*" then some inaddrAny else w.inetPton address

/-- The members that are stored as they are read. -/
def configOf (w : Surroundings) (doc : Document) (proxy : ProxyConfig) : Config :=
  { address := doc.listen.bind (listenAddress w)
    port := (doc.port.map htons).getD ⟨0, 0⟩
    logDir := doc.logPath.getD (ascii "/var/log/whitewebserver")
    webRoot := doc.root.getD (ascii "/etc/whitewebserver/html")
    timeout := doc.timeout.getD 60000
    isProxy := doc.proxyPass.isSome
    proxyConfig := proxy
    indexFile := doc.index.getD [] }

/-- A turn of the loop in `Parse`. -/
def parseDocument (w : Surroundings) (doc : Document) : Except Stop Config := do
  let proxy ← match doc.proxyPass with
    | none => pure ProxyConfig.new
    | some origin => parseProxyPass w origin
  return configOf w doc proxy

/-- `Parse()`, over the documents in the queue. -/
def parse (w : Surroundings) (docs : List Document) : Except Stop (List Config) :=
  docs.mapM (parseDocument w)

/-! ## §3  Values of `proxy_pass` -/

def tolower (b : Byte) : Byte := if 65 ≤ b ∧ b ≤ 90 then b + 32 else b

/-- `scheme://host[:port][path]` -/
structure ProxyPass where
  scheme : Bytes
  host : Bytes
  port : Option Bytes
  path : Option Bytes
  http : strcasecmpEq scheme (ascii "http") ∨ strcasecmpEq scheme (ascii "https")
  named : host ≠ []
  plain : colon ∉ host ∧ slash ∉ host
  decimal : ∀ digits ∈ port, (∀ b ∈ digits, isdigit b) ∧
    1 ≤ digitsValue digits ∧ digitsValue digits ≤ 65535
  rooted : ∀ p ∈ path, p.head? = some slash

namespace ProxyPass

def portText (p : ProxyPass) : Bytes :=
  match p.port with
  | some digits => colon :: digits
  | none => []

def print (p : ProxyPass) : Bytes :=
  p.scheme ++ ascii "://" ++ p.host ++ p.portText ++ p.path.getD []

def protocol (p : ProxyPass) : Bytes := p.scheme.map tolower

def portNumber (p : ProxyPass) : Nat :=
  match p.port with
  | some digits => digitsValue digits
  | none => if p.protocol = ascii "http" then 80 else 443

/-- The configuration says what the value says. -/
structure Means (w : Surroundings) (p : ProxyPass) (proxy : ProxyConfig) : Prop where
  protocol : proxy.protocol = p.protocol
  host : proxy.host = p.host
  addr : proxy.addr = w.gethostbyname p.host
  port : proxy.port.map ntohs = some p.portNumber
  path : proxy.path = p.path.getD (ascii "/")

/-- `Parse` returns, and its configuration says what the value says. -/
def Parsed (w : Surroundings) (p : ProxyPass) (doc : Document) : Prop :=
  ∃ config, parse w [{ doc with proxyPass := some p.print }] = .ok [config] ∧
    config.isProxy = true ∧ p.Means w config.proxyConfig

/-- A port is given, and the memory of the destroyed string still reads as the host where it is
stored, and as a name of the same address where it is looked up. -/
def PortGiven (w : Surroundings) (p : ProxyPass) : Prop :=
  p.port.isSome = true ∧ w.destroyed 0 p.host = some p.host ∧
    ∃ name, w.destroyed 1 p.host = some name ∧ w.gethostbyname name = w.gethostbyname p.host

end ProxyPass

/-! ## §4  What is parsed -/

variable {w : Surroundings} {p : ProxyPass} {proxy q : ProxyConfig} {c : Byte} {s x y : Bytes}

theorem find_append (hx : c ∉ x) :
    find (s ++ (x ++ c :: y)) c s.length = some (s.length + x.length) := by
  rw [find, List.drop_left, findIdx?_first hx]
  rfl

theorem find_none (hx : c ∉ x) : find (s ++ x) c s.length = none := by
  rw [find, List.drop_left, findIdx?_absent hx]
  rfl

theorem le_find {n i : Nat} (h : find s c n = some i) : n ≤ i := by
  obtain ⟨k, -, rfl⟩ := Option.map_eq_some_iff.mp h
  exact Nat.le_add_right n k

theorem substr_append : substr (s ++ x) s.length = .ok x := by
  rw [substr, if_pos (by simp), List.drop_left]

/-! ### Protocol and port -/

theorem tolower_toupper (b : Byte) : tolower (toupper b) = tolower b := by
  have hall : ∀ n : Fin 256, tolower (toupper (UInt8.ofFin n)) = tolower (UInt8.ofFin n) := by
    decide +kernel
  exact hall b.toFin

/-- A scheme that the comparison takes is the name in lower case. -/
theorem lower_of_strcasecmpEq (h : strcasecmpEq s x) : s.map tolower = x.map tolower := by
  have hupper : s.map toupper = x.map toupper := by simpa [strcasecmpEq] using h
  have hlower : ∀ t : Bytes, (t.map toupper).map tolower = t.map tolower := by
    intro t
    rw [List.map_map]
    exact List.map_congr_left fun b _ => tolower_toupper b
  rw [← hlower s, hupper, hlower x]

theorem length_of_strcasecmpEq (h : strcasecmpEq s x) : s.length = x.length := by
  have hupper : s.map toupper = x.map toupper := by simpa [strcasecmpEq] using h
  simpa using congrArg List.length hupper

theorem colon_notMem_scheme (p : ProxyPass) : colon ∉ p.scheme := by
  have hcolon : ∀ {name : Bytes}, strcasecmpEq p.scheme name → colon ∉ name.map toupper →
      colon ∉ p.scheme := by
    intro name h hnot hmem
    have hupper : p.scheme.map toupper = name.map toupper := by simpa [strcasecmpEq] using h
    exact hnot (hupper ▸ List.mem_map.mpr ⟨colon, hmem, by decide⟩)
  rcases p.http with h | h
  · exact hcolon h (by decide)
  · exact hcolon h (by decide)

theorem protocolOf_scheme (p : ProxyPass) (rest : Bytes) :
    protocolOf (p.scheme ++ rest) p.scheme.length = .ok p.protocol := by
  rcases p.http with h | h
  · have hlen : p.scheme.length = 4 := length_of_strcasecmpEq h
    have htake : (p.scheme ++ rest).take 4 = p.scheme := List.take_left' hlen
    rw [protocolOf, htake, if_pos ⟨hlen, h⟩, ProxyPass.protocol, lower_of_strcasecmpEq h]
    rfl
  · have hlen : p.scheme.length = 5 := length_of_strcasecmpEq h
    have htake : (p.scheme ++ rest).take 5 = p.scheme := List.take_left' hlen
    have hnot : ¬ (p.scheme.length = 4 ∧
        strcasecmpEq ((p.scheme ++ rest).take 4) (ascii "http") = true) :=
      fun h4 => absurd (hlen.symm.trans h4.1) (by decide)
    rw [protocolOf, if_neg hnot, htake, if_pos ⟨hlen, h⟩, ProxyPass.protocol,
      lower_of_strcasecmpEq h]
    rfl

/-- The text in front of the host. -/
def ProxyPass.front (p : ProxyPass) : Bytes := p.scheme ++ ascii "://"

theorem ProxyPass.print_eq (p : ProxyPass) :
    p.print = p.front ++ (p.host ++ (p.portText ++ p.path.getD [])) := by
  simp [ProxyPass.print, ProxyPass.front]

theorem parseProxyPass_print (p : ProxyPass) : parseProxyPass w p.print =
    (do
      let (proxy, addrEnd) ←
        parseAddr w p.print p.front.length { ProxyConfig.new with protocol := p.protocol }
      parsePort p.print addrEnd proxy) := by
  have hsplit : p.print = p.scheme ++
      colon :: (ascii "//" ++ (p.host ++ (p.portText ++ p.path.getD []))) := by
    rw [ProxyPass.print_eq, ProxyPass.front, List.append_assoc]
    rfl
  have hfind : find p.print colon 0 = some p.scheme.length := by
    have h := find_append (s := []) (y := ascii "//" ++ (p.host ++ (p.portText ++ p.path.getD [])))
      (colon_notMem_scheme p)
    rw [List.nil_append, ← hsplit] at h
    simpa using h
  have hfront : p.scheme.length + 3 = p.front.length := by
    rw [ProxyPass.front, List.length_append]
    rfl
  have hprotocol : protocolOf p.print p.scheme.length = .ok p.protocol := by
    rw [hsplit]
    exact protocolOf_scheme p _
  rw [parseProxyPass, hfind]
  dsimp only
  rw [hprotocol, hfront]
  rfl

theorem strtolDigits_digits (hdigits : ∀ b ∈ s, isdigit b) : strtolDigits s = (false, s) := by
  cases s with
  | nil => rfl
  | cons b s =>
      have hb : isdigit b = true := hdigits b List.mem_cons_self
      have hspace : ¬ isspace b = true := by
        simp only [isdigit, isspace, SP, Bool.and_eq_true, Bool.or_eq_true, decide_eq_true_eq,
          beq_iff_eq, UInt8.le_iff_toNat_le, ← UInt8.toNat_inj, UInt8.reduceToNat] at hb ⊢
        omega
      have hminus : b ≠ 45 := by
        rintro rfl
        exact absurd hb (by decide)
      have hplus : b ≠ 43 := by
        rintro rfl
        exact absurd hb (by decide)
      rw [strtolDigits, List.dropWhile_cons_of_neg hspace]
      simp [hminus, hplus, List.takeWhile_eq_self_iff.mpr hdigits]

theorem toPort_digits (hdigits : ∀ b ∈ s, isdigit b) (hpos : 1 ≤ digitsValue s)
    (hle : digitsValue s ≤ 65535) : toPort s = .ok (htons (digitsValue s)) := by
  have hne : s ≠ [] := by
    rintro rfl
    exact absurd hpos (by decide)
  have hstoi : stoi s = .ok (digitsValue s : Int) := by
    rw [stoi, strtolDigits_digits hdigits, if_neg hne]
    show checkInt (digitsValue s : Int) = _
    rw [checkInt, if_pos (by omega)]
  rw [toPort, hstoi]

theorem cons_of_rooted (h : s.head? = some slash) : ∃ rest, s = slash :: rest := by
  cases s with
  | nil => cases h
  | cons b rest =>
      obtain rfl := Option.some.inj h
      exact ⟨rest, rfl⟩

/-! ### A port is given -/

theorem readDestroyed_ok {n : Nat} {t : Bytes} :
    readDestroyed w n s = .ok t ↔ w.destroyed n s = some t := by
  unfold readDestroyed
  cases w.destroyed n s with
  | none => simp
  | some u => simp

theorem resolveHost_answered (hanswers : ∀ name, (w.gethostbyname name).isSome = true) :
    resolveHost w s proxy = .ok q ↔ ∃ host name, w.destroyed 0 s = some host ∧
      w.destroyed 1 s = some name ∧
      q = { proxy with host := host, addr := w.gethostbyname name } := by
  constructor
  · intro h
    obtain ⟨host, hhost, h⟩ := bind_eq_ok.mp h
    obtain ⟨name, hname, h⟩ := bind_eq_ok.mp h
    obtain ⟨addr, haddr⟩ := Option.isSome_iff_exists.mp (hanswers name)
    rw [haddr] at h
    exact ⟨host, name, readDestroyed_ok.mp hhost, readDestroyed_ok.mp hname,
      haddr ▸ (Except.ok.inj h).symm⟩
  · rintro ⟨host, name, hhost, hname, rfl⟩
    obtain ⟨addr, haddr⟩ := Option.isSome_iff_exists.mp (hanswers name)
    apply bind_eq_ok.mpr
    refine ⟨host, readDestroyed_ok.mpr hhost, bind_eq_ok.mpr ⟨name, readDestroyed_ok.mpr hname, ?_⟩⟩
    rw [haddr]
    rfl

theorem parsePort_digits {path : Option Bytes} (hdigits : (∀ b ∈ x, isdigit b) ∧
      1 ≤ digitsValue x ∧ digitsValue x ≤ 65535) (hrooted : ∀ t ∈ path, t.head? = some slash) :
    parsePort (s ++ colon :: (x ++ path.getD [])) s.length proxy =
      .ok { proxy with port := some (htons (digitsValue x)), path := path.getD (ascii "/") } := by
  have hslash : slash ∉ colon :: x := by
    rintro (_ | ⟨_, hmem⟩)
    exact absurd (hdigits.1 slash hmem) (by decide)
  have hbehind : substr (s ++ colon :: (x ++ path.getD [])) (s.length + 1) =
      .ok (x ++ path.getD []) := by
    have h := substr_append (s := s ++ [colon]) (x := x ++ path.getD [])
    rwa [List.append_assoc, List.length_append] at h
  have hport := toPort_digits hdigits.1 hdigits.2.1 hdigits.2.2
  cases path with
  | none =>
      have hnone : find (s ++ colon :: (x ++ [])) slash s.length = none := by
        rw [List.append_nil]
        exact find_none hslash
      rw [Option.getD_none, List.append_nil] at *
      rw [parsePort, hnone]
      dsimp only
      rw [hbehind]
      show (toPort x).bind _ = _
      rw [hport]
      rfl
  | some path =>
      obtain ⟨rest, rfl⟩ := cons_of_rooted (hrooted path rfl)
      have hfind : find (s ++ colon :: (x ++ slash :: rest)) slash s.length =
          some (s.length + (x.length + 1)) := find_append (x := colon :: x) hslash
      have hpath : substr (s ++ colon :: (x ++ slash :: rest)) (s.length + (x.length + 1)) =
          .ok (slash :: rest) := by
        have h := substr_append (s := s ++ colon :: x) (x := slash :: rest)
        rwa [List.append_assoc, List.length_append] at h
      rw [Option.getD_some] at *
      rw [parsePort, hfind]
      dsimp only
      rw [if_pos (by omega), hbehind, hpath]
      show (toPort ((x ++ slash :: rest).take
        (s.length + (x.length + 1) - s.length - 1))).bind _ = _
      have hlen : s.length + (x.length + 1) - s.length - 1 = x.length := by omega
      rw [hlen, List.take_left, hport]
      rfl

theorem parseProxyPass_port {digits : Bytes} (hport : p.port = some digits) :
    parseProxyPass w p.print = (do
      let proxy ← resolveHost w p.host { ProxyConfig.new with protocol := p.protocol }
      return { proxy with
        port := some (htons p.portNumber), path := p.path.getD (ascii "/") }) := by
  have hprint : p.print = p.front ++ (p.host ++ colon :: (digits ++ p.path.getD [])) := by
    rw [ProxyPass.print_eq, ProxyPass.portText, hport]
    rfl
  have hcolon : find p.print colon p.front.length = some (p.front.length + p.host.length) := by
    rw [hprint]
    exact find_append p.plain.1
  have hhost : substr p.print p.front.length =
      .ok (p.host ++ colon :: (digits ++ p.path.getD [])) := by
    rw [hprint]
    exact substr_append
  have hend : p.print = (p.front ++ p.host) ++ colon :: (digits ++ p.path.getD []) := by
    rw [hprint, List.append_assoc]
  have hnumber : p.portNumber = digitsValue digits := by
    rw [ProxyPass.portNumber, hport]
  have hrest : ∀ proxy, parsePort p.print (p.front.length + p.host.length) proxy =
      .ok { proxy with port := some (htons p.portNumber), path := p.path.getD (ascii "/") } := by
    intro proxy
    rw [hend, ← List.length_append, hnumber]
    exact parsePort_digits (p.decimal digits hport) p.rooted
  rw [parseProxyPass_print, parseAddr, hcolon]
  dsimp only
  rw [hhost]
  show ((resolveHost w ((p.host ++ colon :: (digits ++ p.path.getD [])).take
    (p.front.length + p.host.length - p.front.length)) _).bind fun proxy =>
      .ok (proxy, p.front.length + p.host.length)).bind _ = _
  rw [Nat.add_sub_cancel_left, List.take_left]
  cases resolveHost w p.host { ProxyConfig.new with protocol := p.protocol } with
  | error e => rfl
  | ok proxy => exact hrest proxy

/-! ### No port is given -/

theorem resolveHost_path (h : resolveHost w s proxy = .ok q) : q.path = proxy.path := by
  obtain ⟨host, -, h⟩ := bind_eq_ok.mp h
  obtain ⟨name, -, h⟩ := bind_eq_ok.mp h
  split at h
  · rw [← Except.ok.inj h]
  · obtain ⟨name', -, h⟩ := bind_eq_ok.mp h
    split at h
    · rw [← Except.ok.inj h]
    · cases h

theorem parsePort_path {addrEnd : Nat} (h : parsePort s addrEnd proxy = .ok q) :
    q.path = proxy.path ∨ q.path = ascii "/" ∨ ∃ n, addrEnd ≤ n ∧ q.path = s.drop n := by
  rw [parsePort] at h
  split at h
  · obtain ⟨rest, -, h⟩ := bind_eq_ok.mp h
    obtain ⟨port, -, h⟩ := bind_eq_ok.mp h
    exact .inr (.inl (congrArg ProxyConfig.path (Except.ok.inj h).symm))
  · rename_i portEnd hfind
    split at h
    · obtain ⟨rest, -, h⟩ := bind_eq_ok.mp h
      obtain ⟨port, -, h⟩ := bind_eq_ok.mp h
      obtain ⟨path, hpath, h⟩ := bind_eq_ok.mp h
      rw [substr] at hpath
      split at hpath
      · obtain rfl := Except.ok.inj hpath
        exact .inr (.inr ⟨portEnd, le_find hfind, by rw [← Except.ok.inj h]⟩)
      · cases hpath
    · exact .inl (congrArg ProxyConfig.path (Except.ok.inj h).symm)

theorem print_portless (hport : p.port = none) :
    p.print = p.front ++ (p.host ++ p.path.getD []) := by
  rw [ProxyPass.print_eq, ProxyPass.portText, hport]
  rfl

/-- The host alone: the port is looked for behind the end. -/
theorem parseProxyPass_bare (hport : p.port = none) (hpath : p.path = none) :
    parseProxyPass w p.print = .error .thrown := by
  have hprint : p.print = p.front ++ p.host := by
    rw [print_portless hport, hpath, Option.getD_none, List.append_nil]
  have hcolon : find p.print colon p.front.length = none := hprint ▸ find_none p.plain.1
  have hslash : find p.print slash p.front.length = none := hprint ▸ find_none p.plain.2
  have hend : find p.print slash p.print.length = none := by
    have h := find_none (s := p.print) (x := []) (c := slash) List.not_mem_nil
    rwa [List.append_nil] at h
  have hbehind : substr p.print (p.print.length + 1) = .error .thrown := if_neg (by omega)
  rw [parseProxyPass_print, parseAddr, hcolon]
  dsimp only
  rw [hslash]
  show parsePort p.print p.print.length _ = _
  rw [parsePort, hend]
  dsimp only
  rw [hbehind]
  rfl

/-- A host and a path without a `:`: neither host nor path are stored. -/
theorem parseProxyPass_path {t : Bytes} (hport : p.port = none) (hpath : p.path = some t)
    (ht : colon ∉ t) : ∃ port, parseProxyPass w p.print =
      .ok { ProxyConfig.new with protocol := p.protocol, port := some port } := by
  obtain ⟨rest, rfl⟩ := cons_of_rooted (p.rooted t hpath)
  have hprint : p.print = p.front ++ (p.host ++ slash :: rest) := by
    rw [print_portless hport, hpath, Option.getD_some]
  have hcolon : find p.print colon p.front.length = none := by
    rw [hprint]
    exact find_none fun hmem => (List.mem_append.mp hmem).elim p.plain.1 ht
  have hslash : find p.print slash p.front.length = some (p.front.length + p.host.length) := by
    rw [hprint]
    exact find_append p.plain.2
  have hagain : find p.print slash (p.front.length + p.host.length) =
      some (p.front.length + p.host.length) := by
    rw [hprint, ← List.append_assoc, ← List.length_append]
    exact find_append (x := []) List.not_mem_nil
  refine ⟨htons (if p.protocol = ascii "http" then 80 else 443), ?_⟩
  rw [parseProxyPass_print, parseAddr, hcolon]
  dsimp only
  rw [hslash]
  show parsePort p.print (p.front.length + p.host.length) _ = _
  rw [parsePort, hagain]
  dsimp only
  rw [if_neg (not_not_intro rfl)]

/-- A `:` in the path ends the host, and what is stored as path is shorter. -/
theorem path_ne_of_colon {t : Bytes} (hport : p.port = none) (hpath : p.path = some t)
    (ht : colon ∈ t) (h : parseProxyPass w p.print = .ok q) : q.path ≠ t := by
  obtain ⟨u, v, rfl, hu⟩ := List.eq_append_cons_of_mem ht
  have hune : 0 < u.length := by
    rcases u with _ | ⟨b, u⟩
    · have hhead : some colon = some slash := p.rooted _ hpath
      exact absurd hhead (by decide)
    · exact Nat.succ_pos _
  have hprint : p.print = p.front ++ ((p.host ++ u) ++ colon :: v) := by
    rw [print_portless hport, hpath, Option.getD_some, List.append_assoc]
  have hcolon : find p.print colon p.front.length =
      some (p.front.length + (p.host ++ u).length) := by
    rw [hprint]
    exact find_append fun hmem => (List.mem_append.mp hmem).elim p.plain.1 hu
  rw [parseProxyPass_print, parseAddr, hcolon] at h
  obtain ⟨r, hr, hparse⟩ := bind_eq_ok.mp h
  obtain ⟨rest, -, hr⟩ := bind_eq_ok.mp hr
  obtain ⟨proxy, hresolve, hr⟩ := bind_eq_ok.mp hr
  obtain rfl := Except.ok.inj hr
  rintro hq
  rcases parsePort_path hparse with hkept | hroot | ⟨n, hn, hdrop⟩
  · rw [hq, resolveHost_path hresolve] at hkept
    exact absurd (congrArg List.length hkept) (by simp [ProxyConfig.new])
  · rw [hq] at hroot
    exact absurd (hroot ▸ ht) (by decide)
  · have hlen := congrArg List.length (hq.symm.trans hdrop)
    rw [hprint] at hlen
    simp only [List.length_append, List.length_cons, List.length_drop] at hlen hn
    omega

/-- Without a port the path is lost. -/
theorem path_ne_of_portless (hport : p.port = none) (h : parseProxyPass w p.print = .ok q) :
    q.path ≠ p.path.getD (ascii "/") := by
  cases hpath : p.path with
  | none =>
      rw [parseProxyPass_bare hport hpath] at h
      cases h
  | some t =>
      rw [Option.getD_some]
      by_cases ht : colon ∈ t
      · exact path_ne_of_colon hport hpath ht h
      · obtain ⟨port, hparse⟩ := parseProxyPass_path (w := w) hport hpath ht
        rw [← Except.ok.inj (hparse.symm.trans h)]
        rintro rfl
        cases p.rooted [] hpath

/-! ### Both -/

theorem parse_singleton {doc : Document} {config : Config} :
    parse w [doc] = .ok [config] ↔ parseDocument w doc = .ok config := by
  rw [parse, List.mapM_cons, List.mapM_nil]
  constructor
  · intro h
    obtain ⟨config', hdocument, hlist⟩ := bind_eq_ok.mp h
    obtain rfl := (List.cons.inj (Except.ok.inj hlist)).1
    exact hdocument
  · intro h
    exact bind_eq_ok.mpr ⟨config, h, rfl⟩

theorem parsed_iff_parseProxyPass {doc : Document} : p.Parsed w doc ↔
    ∃ q, parseProxyPass w p.print = .ok q ∧ p.Means w q := by
  constructor
  · rintro ⟨config, hparse, -, hmeans⟩
    obtain ⟨proxy, hproxy, hconfig⟩ := bind_eq_ok.mp (parse_singleton.mp hparse)
    obtain rfl := Except.ok.inj hconfig
    exact ⟨proxy, hproxy, hmeans⟩
  · rintro ⟨proxy, hproxy, hmeans⟩
    exact ⟨configOf w { doc with proxyPass := some p.print } proxy,
      parse_singleton.mpr (bind_eq_ok.mpr ⟨proxy, hproxy, rfl⟩), rfl, hmeans⟩

/-- **A value of `proxy_pass` is parsed to what it says** exactly if it has a port and the
memory of a destroyed string still holds the host: for every value and every other member of the
document. -/
theorem parse_print_iff (w : Surroundings)
    (hanswers : ∀ name, (w.gethostbyname name).isSome = true) (p : ProxyPass) (doc : Document) :
    p.Parsed w doc ↔ p.PortGiven w := by
  rw [parsed_iff_parseProxyPass]
  constructor
  · rintro ⟨q, hparse, hmeans⟩
    cases hport : p.port with
    | none => exact absurd hmeans.path (path_ne_of_portless hport hparse)
    | some digits =>
        rw [parseProxyPass_port hport] at hparse
        obtain ⟨proxy, hresolve, hq⟩ := bind_eq_ok.mp hparse
        obtain rfl := Except.ok.inj hq
        obtain ⟨host, name, hhost, hname, rfl⟩ := (resolveHost_answered hanswers).mp hresolve
        obtain rfl : host = p.host := hmeans.host
        exact ⟨hport ▸ rfl, hhost, name, hname, hmeans.addr⟩
  · rintro ⟨hport, hhost, name, hname, haddr⟩
    obtain ⟨digits, hport⟩ := Option.isSome_iff_exists.mp hport
    refine ⟨_, (parseProxyPass_port hport).trans (bind_eq_ok.mpr ⟨_,
      (resolveHost_answered hanswers).mpr ⟨p.host, name, hhost, hname, rfl⟩, rfl⟩), ?_⟩
    have hle : p.portNumber < 65536 := by
      rw [ProxyPass.portNumber, hport]
      have hrange := (p.decimal digits hport).2.2
      dsimp only
      omega
    exact ⟨rfl, rfl, haddr, congrArg some (ntohs_htons hle), rfl⟩

/-- "HTTP://backend:8080/a:b" is parsed to what it says. -/
def backend : ProxyPass where
  scheme := ascii "HTTP"
  host := ascii "backend"
  port := some (ascii "8080")
  path := some (ascii "/a:b")
  http := by decide
  named := by decide
  plain := by decide
  decimal := by
    rintro _ ⟨⟩
    decide +kernel
  rooted := by
    rintro _ ⟨⟩
    rfl

theorem parse_print_backend : backend.Parsed
    ⟨fun _ => some ⟨10, 0, 0, 1⟩, fun _ => none, fun _ s => some s⟩
    ⟨none, none, none, none, none, none, none⟩ :=
  (parse_print_iff _ (fun _ => rfl) backend _).mpr
    ⟨rfl, rfl, ascii "backend", rfl, rfl⟩

/-- "http://backend" is not parsed at all. -/
def portless : ProxyPass :=
  { backend with
    scheme := ascii "http"
    port := none
    path := none
    http := by decide
    decimal := by rintro _ ⟨⟩
    rooted := by rintro _ ⟨⟩ }

theorem parse_print_portless : ¬ portless.Parsed
    ⟨fun _ => some ⟨10, 0, 0, 1⟩, fun _ => none, fun _ s => some s⟩
    ⟨none, none, none, none, none, none, none⟩ := by
  rintro ⟨config, hparse, -⟩
  have hthrown : parse ⟨fun _ => some ⟨10, 0, 0, 1⟩, fun _ => none, fun _ s => some s⟩
      [⟨none, none, none, none, none, some portless.print, none⟩] = .error .thrown := by
    rfl
  rw [hthrown] at hparse
  cases hparse

end ConfigParser

end WhiteWebServer
