import Lax.Net.Basic

/-!
This module contains addresses and acceptors. How an IP address is written and whether a socket can be
opened, bound and listened on is not up to this code, so both come from the outside.
-/

namespace Lax

-- `service::result` is a success for whoever asks it as a bool if `code` is.
structure Result where
  code : Bool
  value : Reason
  deriving DecidableEq, Repr

structure Endpoint (Ip : Type) where
  ip : Ip
  port : UInt16
  deriving DecidableEq, Repr

-- There is an endpoint if the address is valid.
structure Addr (Ip : Type) where
  raw : String
  endpoint : Option (Endpoint Ip)
  deriving DecidableEq, Repr

namespace Addr

def isSpace (c : Char) : Bool :=
  c = ' ' || (9 ≤ c.toNat && c.toNat ≤ 13)

def digits (n : Nat) : List Char → Nat
  | [] => n
  | c :: cs => if c.isDigit then digits (n * 10 + (c.toNat - 48)) cs else n

-- What does not fit into an `int` is clamped.
def atoi (cs : List Char) : Int :=
  match cs.dropWhile isSpace with
  | '-' :: cs => -(min (digits 0 cs) 2147483648 : Nat)
  | '+' :: cs => (min (digits 0 cs) 2147483647 : Nat)
  | cs => (min (digits 0 cs) 2147483647 : Nat)

def toPort (n : Int) : UInt16 :=
  UInt16.ofNat (n % 65536).toNat

-- `fromString` is `asio::ip::address::from_string`.
def ofString {Ip : Type} (fromString : String → Option Ip) (s : String) : Addr Ip :=
  let sip := s.toList.takeWhile (· ≠ ':')
  match s.toList.dropWhile (· ≠ ':') with
  | [] => ⟨s, none⟩
  | _ :: sport =>
    if sport = [] then
      ⟨s, none⟩
    else
      let port := toPort (atoi sport)
      if port = 0 then
        ⟨s, none⟩
      else
        ⟨s, (fromString (String.ofList sip)).map fun ip => ⟨ip, port⟩⟩

def isValid {Ip : Type} (addr : Addr Ip) : Bool :=
  addr.endpoint.isSome

end Addr

-- Which of the calls do not throw an `asio::system_error`.
structure Asio where
  opens : Bool
  binds : Bool
  listens : Bool
  deriving DecidableEq, Repr

structure Acceptor (Ip : Type) where
  id : Nat
  protocol : String
  addr : Addr Ip
  isOpen : Bool
  bound : Bool
  listening : Bool
  accepting : Bool
  deriving DecidableEq, Repr

namespace Acceptor

variable {Ip : Type}

def ctor (id : Nat) (protocol : String) (addr : Addr Ip) : Acceptor Ip :=
  ⟨id, protocol, addr, false, false, false, false⟩

def doAccept (a : Acceptor Ip) : Acceptor Ip :=
  if ¬a.isOpen then a else { a with accepting := true }

def listen (a : Acceptor Ip) (asio : Asio) : Result × Acceptor Ip :=
  if ¬a.addr.isValid then
    (⟨false, .failInvalidAddress⟩, a)
  else if ¬asio.opens then
    (⟨true, .failAcceptorOpen⟩, a)
  else
    let a := { a with isOpen := true }
    if ¬asio.binds then
      (⟨true, .failAcceptorBind⟩, a)
    else
      let a := { a with bound := true }
      if ¬asio.listens then
        (⟨true, .failAcceptorListen⟩, a)
      else
        (⟨true, .success⟩, { a with listening := true }.doAccept)

end Acceptor
end Lax
