import Delegate.CText
import Delegate.VAddr
import Delegate.Gates
import Delegate.HostMatch
import Delegate.HostFormula
import Delegate.HostElement
import Delegate.HostOrder
import Delegate.HostCompile
import Delegate.AddrText
import Delegate.NetPrefix
import Delegate.AddrRange
import Delegate.HostListTab
import Delegate.Protect
import Delegate.UrlEscape
import Delegate.UrlSite
import Delegate.UrlPass
import Delegate.UrlSplit
import Delegate.Memo
import Delegate.MountCond
import Delegate.Bsort
import Delegate.MountSort
import Delegate.Segments
import Delegate.UrlPath
import Delegate.UrlDots
import Delegate.Reads
import Delegate.DnsMessage
import Delegate.DnsBounds
import Delegate.DnsNode
import Delegate.DnsIndex
import Delegate.DnsAttr
import Delegate.DnsLookup
import Delegate.DnsServers
import Delegate.DnsReply
import Delegate.DnsWellFormed
import Delegate.DnsNames
import Delegate.DnsSizes
import Delegate.DnsResults
import Delegate.DnsExchangers
import Delegate.Socks5
import Delegate.SocksUdp
import Delegate.Stores
import Delegate.VStr
import Delegate.LdapRead
import Delegate.LdapWalk
import Delegate.CacheFormat
import Delegate.CachePath
import Delegate.Runs
import Delegate.HeldPort
import Delegate.UdpRelay
import Delegate.UdpAlive
import Delegate.UdpPeers
import Delegate.ConnCache
import Delegate.Distrib
import Delegate.IcpReply
import Delegate.DnsRepeat
import Delegate.Words
import Delegate.Bignum
import Delegate.PowMod
import Delegate.Credhy
import Delegate.CredhyStream
import Delegate.Swaps
import Delegate.Pelcgb
import Delegate.PelcgbFile
import Delegate.HostCache
import Delegate.DnsCaching
import Delegate.DnsRelayed
import Delegate.Probing
import Delegate.HashTable
import Delegate.Percent
import Delegate.UrlMatch
import Delegate.UrlReescape
import Delegate.Base64
import Delegate.QuotedPrintable
import Delegate.SchedAppend
import Delegate.Calendar
import Delegate.Timegm
import Delegate.StringScan
import Delegate.Strftime
import Delegate.Scanftime
import Delegate.DateRoundTrip
import Delegate.LocalDates
import Delegate.UTags
import Delegate.ScanMonths
import Delegate.HostsLine
import Delegate.HostsFile
import Delegate.HostAnswers
import Delegate.HostStored
import Delegate.HeaderEncode
import Delegate.HeaderDecode
import Delegate.HeaderKept
import Delegate.Sox
import Delegate.SoxLink
import Delegate.SoxRouted
import Delegate.SoxSteps
import Delegate.SoxFlow
import Delegate.SoxRuns
import Delegate.SoxOverrun
import Delegate.SocksReply
import Delegate.HeaderRemove
import Delegate.HeaderReplace
import Delegate.Entities
import Delegate.HtmlText
import Delegate.Sed
import Delegate.SedLiteral
import Delegate.HeaderFilter
import Delegate.ContentMessage
import Delegate.UrlUnify
import Delegate.LineText
import Delegate.StringStream
import Delegate.UnixNames
import Delegate.Socks4
import Delegate.Recency
import Delegate.PageCounter
import Delegate.GatewayAcl
import Delegate.AttrFile
import Delegate.PathFormats
import Delegate.ListElems
import Delegate.GlobMatch
import Delegate.Strid
import Delegate.UdpTimeouts
import Delegate.SchedForms
import Delegate.UrlRoundTrip
import Delegate.CredhyString
import Delegate.IcpSelect
import Delegate.TelnetScan
import Delegate.TarHeader
import Delegate.Tar
import Delegate.ScanLocal
import Delegate.CanonDate
import Delegate.CanonKept
import Delegate.StableSort
import Delegate.RecordSort
import Delegate.Saturate
import Delegate.NumberScan
import Delegate.HostPaths
import Delegate.HostSlots
import Delegate.Codec7
import Delegate.Uudec
import Delegate.Crc
import Delegate.Cksum
import Delegate.StrMatchList
import Delegate.UvToSf
import Delegate.MountReverse
import Delegate.QzCode
import Delegate.QzRelay
