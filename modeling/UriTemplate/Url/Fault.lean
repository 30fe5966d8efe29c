import UriTemplate.Text

/-!
# Faults of URLs

Why a text is not an absolute URL.
-/

namespace UriTemplate.Url

/-- What is wrong with a text that should be an absolute URL. -/
inductive Fault where
  /-- The text has no scheme. -/
  | relative
  /-- A scheme that asks for a host is followed by none. -/
  | emptyHost
  | invalidPort
  | invalidIpv4
  | invalidIpv6
  /-- The host holds a character that no domain has. -/
  | invalidDomain
  /-- The host is not an international domain name. -/
  | invalidInternational
deriving DecidableEq, Repr

/-- The words for a fault. -/
def Fault.message : Fault → Text
  | relative => "relative URL without a base".toList
  | emptyHost => "empty host".toList
  | invalidPort => "invalid port number".toList
  | invalidIpv4 => "invalid IPv4 address".toList
  | invalidIpv6 => "invalid IPv6 address".toList
  | invalidDomain => "invalid domain character".toList
  | invalidInternational => "invalid international domain name".toList

end UriTemplate.Url
