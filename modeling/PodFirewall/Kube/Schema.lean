import PodFirewall.Kube.Metadata

/-!
The schemas of the API objects read here: pods, namespaces, services and
network policies. A schema lists the fields of a type next to `metadata`.
-/

namespace PodFirewall.Kube.Schema

/-- A record all of whose listed fields are texts. -/
def texts (names : List String) : List (String × Shape) := names.map fun n => (n, .text)

/-! ### Selectors and network policies -/

def labelSelector : Shape :=
  .record
    [ ("matchExpressions", .list (.record
        [("key", .text), ("operator", .text), ("values", .list .text)])),
      ("matchLabels", .table .text) ]

def ipBlock : Shape := .record [("cidr", .text), ("except", .list .text)]

def policyPort : Shape :=
  .record [("endPort", .int32), ("port", .int32OrText), ("protocol", .text)]

def policyPeer : Shape :=
  .record
    [("ipBlock", ipBlock), ("namespaceSelector", labelSelector), ("podSelector", labelSelector)]

def networkPolicy : List (String × Shape) :=
  [ ("spec", .record
      [ ("egress", .list (.record
          [("ports", .list policyPort), ("to", .list policyPeer)])),
        ("ingress", .list (.record
          [("from", .list policyPeer), ("ports", .list policyPort)])),
        ("podSelector", labelSelector),
        ("policyTypes", .list .text) ]) ]

/-! ### Namespaces and services -/

def namespaces : List (String × Shape) :=
  [ ("spec", .record [("finalizers", .list .text)]),
    ("status", .record
      [ ("conditions", .list (.record
          (("lastTransitionTime", .time) :: texts ["message", "reason", "status", "type"]))),
        ("phase", .text) ]) ]

def condition : Shape :=
  .record
    (("lastTransitionTime", .required .time) :: ("observedGeneration", .int64) ::
      texts ["message", "reason", "status", "type"])

def service : List (String × Shape) :=
  [ ("spec", .record
      ([ ("allocateLoadBalancerNodePorts", .flag), ("clusterIPs", .list .text),
         ("externalIPs", .list .text), ("healthCheckNodePort", .int32),
         ("ipFamilies", .list .text), ("loadBalancerSourceRanges", .list .text),
         ("ports", .list (.record
           [ ("appProtocol", .text), ("name", .text), ("nodePort", .int32),
             ("port", .int32), ("protocol", .text), ("targetPort", .int32OrText) ])),
         ("publishNotReadyAddresses", .flag), ("selector", .table .text),
         ("sessionAffinityConfig", .record
           [("clientIP", .record [("timeoutSeconds", .int32)])]) ] ++
        texts ["clusterIP", "externalName", "externalTrafficPolicy", "internalTrafficPolicy",
          "ipFamilyPolicy", "loadBalancerClass", "loadBalancerIP", "sessionAffinity", "type"])),
    ("status", .record
      [ ("conditions", .list condition),
        ("loadBalancer", .record
          [("ingress", .list (.record
            [ ("hostname", .text), ("ip", .text),
              ("ports", .list (.record
                [("error", .text), ("port", .int32), ("protocol", .text)])) ]))]) ]) ]

/-! ### Containers -/

def nameOnly : Shape := .record [("name", .text)]

def keyReference : Shape := .record [("key", .text), ("name", .text), ("optional", .flag)]

def fieldReference : Shape := .record (texts ["apiVersion", "fieldPath"])

def resourceReference : Shape := .record (texts ["containerName", "divisor", "resource"])

def environmentVariable : Shape :=
  .record
    [ ("name", .text), ("value", .text),
      ("valueFrom", .record
        [ ("configMapKeyRef", keyReference), ("fieldRef", fieldReference),
          ("resourceFieldRef", resourceReference), ("secretKeyRef", keyReference) ]) ]

def command : Shape := .record [("command", .list .text)]

def httpGet : Shape :=
  .record
    [ ("host", .text), ("httpHeaders", .list (.record (texts ["name", "value"]))),
      ("path", .text), ("port", .int32OrText), ("scheme", .text) ]

def tcpSocket : Shape := .record [("host", .text), ("port", .int32OrText)]

/-- What is done at a turn of a container's life. -/
def lifecycleHandler : Shape :=
  .record [("exec", command), ("httpGet", httpGet), ("tcpSocket", tcpSocket)]

def probe : Shape :=
  .record
    [ ("exec", command), ("failureThreshold", .int32),
      ("grpc", .record [("port", .int32), ("service", .text)]), ("httpGet", httpGet),
      ("initialDelaySeconds", .int32), ("periodSeconds", .int32),
      ("successThreshold", .int32), ("tcpSocket", tcpSocket),
      ("terminationGracePeriodSeconds", .int64), ("timeoutSeconds", .int32) ]

def resources : Shape :=
  .record
    [("claims", .list nameOnly), ("limits", .table .text), ("requests", .table .text)]

/-- Security settings that pods and containers share. -/
def sharedSecurity : List (String × Shape) :=
  [ ("runAsGroup", .int64), ("runAsNonRoot", .flag), ("runAsUser", .int64),
    ("seLinuxOptions", .record (texts ["level", "role", "type", "user"])),
    ("seccompProfile", .record (texts ["localhostProfile", "type"])),
    ("windowsOptions", .record
      (("hostProcess", .flag) ::
        texts ["gmsaCredentialSpec", "gmsaCredentialSpecName", "runAsUserName"])) ]

def containerSecurity : Shape :=
  .record
    ([ ("allowPrivilegeEscalation", .flag),
       ("capabilities", .record [("add", .list .text), ("drop", .list .text)]),
       ("privileged", .flag), ("procMount", .text), ("readOnlyRootFilesystem", .flag) ] ++
      sharedSecurity)

def containerFields : List (String × Shape) :=
  [ ("args", .list .text), ("command", .list .text), ("env", .list environmentVariable),
    ("envFrom", .list (.record
      [ ("configMapRef", .record [("name", .text), ("optional", .flag)]), ("prefix", .text),
        ("secretRef", .record [("name", .text), ("optional", .flag)]) ])),
    ("lifecycle", .record [("postStart", lifecycleHandler), ("preStop", lifecycleHandler)]),
    ("livenessProbe", probe),
    ("ports", .list (.record
      [ ("containerPort", .int32), ("hostIP", .text), ("hostPort", .int32), ("name", .text),
        ("protocol", .text) ])),
    ("readinessProbe", probe),
    ("resizePolicy", .list (.record (texts ["resourceName", "restartPolicy"]))),
    ("resources", resources), ("securityContext", containerSecurity), ("startupProbe", probe),
    ("stdin", .flag), ("stdinOnce", .flag), ("tty", .flag),
    ("volumeDevices", .list (.record (texts ["devicePath", "name"]))),
    ("volumeMounts", .list (.record
      (("readOnly", .flag) ::
        texts ["mountPath", "mountPropagation", "name", "subPath", "subPathExpr"]))) ] ++
    texts ["image", "imagePullPolicy", "name", "restartPolicy", "terminationMessagePath",
      "terminationMessagePolicy", "workingDir"]

/-! ### Volumes -/

/-- An entry of an object that becomes a file. -/
def projectedItem : Shape := .record [("key", .text), ("mode", .int32), ("path", .text)]

/-- A file with a field of the pod. -/
def downwardItem : Shape :=
  .record
    [ ("fieldRef", fieldReference), ("mode", .int32), ("path", .text),
      ("resourceFieldRef", resourceReference) ]

/-- A claim to storage that a pod brings with it. -/
def volumeClaim : Shape :=
  .record
    ([ ("accessModes", .list .text),
       ("dataSource", .record (texts ["apiGroup", "kind", "name"])),
       ("dataSourceRef", .record (texts ["apiGroup", "kind", "name", "namespace"])),
       ("resources", resources), ("selector", labelSelector) ] ++
      texts ["storageClassName", "volumeMode", "volumeName"])

def volume : Shape :=
  .record
    [ ("name", .text),
      ("awsElasticBlockStore", .record
        [("fsType", .text), ("partition", .int32), ("readOnly", .flag), ("volumeID", .text)]),
      ("azureDisk", .record
        (("readOnly", .flag) :: texts ["cachingMode", "diskName", "diskURI", "fsType", "kind"])),
      ("azureFile", .record (("readOnly", .flag) :: texts ["secretName", "shareName"])),
      ("cephfs", .record
        ([("monitors", .list .text), ("readOnly", .flag), ("secretRef", nameOnly)] ++
          texts ["path", "secretFile", "user"])),
      ("cinder", .record
        ([("readOnly", .flag), ("secretRef", nameOnly)] ++ texts ["fsType", "volumeID"])),
      ("configMap", .record
        [ ("defaultMode", .int32), ("items", .list projectedItem), ("name", .text),
          ("optional", .flag) ]),
      ("csi", .record
        [ ("driver", .text), ("fsType", .text), ("nodePublishSecretRef", nameOnly),
          ("readOnly", .flag), ("volumeAttributes", .table .text) ]),
      ("downwardAPI", .record [("defaultMode", .int32), ("items", .list downwardItem)]),
      ("emptyDir", .record (texts ["medium", "sizeLimit"])),
      ("ephemeral", .record
        [("volumeClaimTemplate", .record
          [("metadata", metadataShape), ("spec", volumeClaim)])]),
      ("fc", .record
        [ ("fsType", .text), ("lun", .int32), ("readOnly", .flag), ("targetWWNs", .list .text),
          ("wwids", .list .text) ]),
      ("flexVolume", .record
        [ ("driver", .text), ("fsType", .text), ("options", .table .text), ("readOnly", .flag),
          ("secretRef", nameOnly) ]),
      ("flocker", .record (texts ["datasetName", "datasetUUID"])),
      ("gcePersistentDisk", .record
        [("fsType", .text), ("partition", .int32), ("pdName", .text), ("readOnly", .flag)]),
      ("gitRepo", .record (texts ["directory", "repository", "revision"])),
      ("glusterfs", .record (("readOnly", .flag) :: texts ["endpoints", "path"])),
      ("hostPath", .record (texts ["path", "type"])),
      ("iscsi", .record
        ([ ("chapAuthDiscovery", .flag), ("chapAuthSession", .flag), ("lun", .int32),
           ("portals", .list .text), ("readOnly", .flag), ("secretRef", nameOnly) ] ++
          texts ["fsType", "initiatorName", "iqn", "iscsiInterface", "targetPortal"])),
      ("nfs", .record (("readOnly", .flag) :: texts ["path", "server"])),
      ("persistentVolumeClaim", .record [("claimName", .text), ("readOnly", .flag)]),
      ("photonPersistentDisk", .record (texts ["fsType", "pdID"])),
      ("portworxVolume", .record (("readOnly", .flag) :: texts ["fsType", "volumeID"])),
      ("projected", .record
        [ ("defaultMode", .int32),
          ("sources", .list (.record
            [ ("configMap", .record
                [("items", .list projectedItem), ("name", .text), ("optional", .flag)]),
              ("downwardAPI", .record [("items", .list downwardItem)]),
              ("secret", .record
                [("items", .list projectedItem), ("name", .text), ("optional", .flag)]),
              ("serviceAccountToken", .record
                [("audience", .text), ("expirationSeconds", .int64), ("path", .text)]) ])) ]),
      ("quobyte", .record
        (("readOnly", .flag) :: texts ["group", "registry", "tenant", "user", "volume"])),
      ("rbd", .record
        ([("monitors", .list .text), ("readOnly", .flag), ("secretRef", nameOnly)] ++
          texts ["fsType", "image", "keyring", "pool", "user"])),
      ("scaleIO", .record
        ([("readOnly", .flag), ("secretRef", nameOnly), ("sslEnabled", .flag)] ++
          texts ["fsType", "gateway", "protectionDomain", "storageMode", "storagePool", "system",
            "volumeName"])),
      ("secret", .record
        [ ("defaultMode", .int32), ("items", .list projectedItem), ("optional", .flag),
          ("secretName", .text) ]),
      ("storageos", .record
        ([("readOnly", .flag), ("secretRef", nameOnly)] ++
          texts ["fsType", "volumeName", "volumeNamespace"])),
      ("vsphereVolume", .record
        (texts ["fsType", "storagePolicyID", "storagePolicyName", "volumePath"])) ]

/-! ### Pods -/

def nodeTerm : Shape :=
  let requirement : Shape :=
    .record [("key", .text), ("operator", .text), ("values", .list .text)]
  .record [("matchExpressions", .list requirement), ("matchFields", .list requirement)]

def podTerm : Shape :=
  .record
    [ ("labelSelector", labelSelector), ("namespaceSelector", labelSelector),
      ("namespaces", .list .text), ("topologyKey", .text) ]

def podAffinity : Shape :=
  .record
    [ ("preferredDuringSchedulingIgnoredDuringExecution", .list (.record
        [("podAffinityTerm", podTerm), ("weight", .int32)])),
      ("requiredDuringSchedulingIgnoredDuringExecution", .list podTerm) ]

def affinity : Shape :=
  .record
    [ ("nodeAffinity", .record
        [ ("preferredDuringSchedulingIgnoredDuringExecution", .list (.record
            [("preference", nodeTerm), ("weight", .int32)])),
          ("requiredDuringSchedulingIgnoredDuringExecution", .record
            [("nodeSelectorTerms", .list nodeTerm)]) ]),
      ("podAffinity", podAffinity), ("podAntiAffinity", podAffinity) ]

def containerState : Shape :=
  .record
    [ ("running", .record [("startedAt", .time)]),
      ("terminated", .record
        [ ("containerID", .text), ("exitCode", .int32), ("finishedAt", .time),
          ("message", .text), ("reason", .text), ("signal", .int32), ("startedAt", .time) ]),
      ("waiting", .record (texts ["message", "reason"])) ]

def containerStatus : Shape :=
  .record
    [ ("allocatedResources", .table .text), ("containerID", .text), ("image", .text),
      ("imageID", .text), ("lastState", containerState), ("name", .text), ("ready", .flag),
      ("resources", resources), ("restartCount", .int32), ("started", .flag),
      ("state", containerState) ]

def pod : List (String × Shape) :=
  [ ("spec", .record
      ([ ("activeDeadlineSeconds", .int64), ("affinity", affinity),
         ("automountServiceAccountToken", .flag),
         ("containers", .list (.record containerFields)),
         ("dnsConfig", .record
           [ ("nameservers", .list .text),
             ("options", .list (.record (texts ["name", "value"]))),
             ("searches", .list .text) ]),
         ("enableServiceLinks", .flag),
         ("ephemeralContainers", .list (.record
           (("targetContainerName", .text) :: containerFields))),
         ("hostAliases", .list (.record [("hostnames", .list .text), ("ip", .text)])),
         ("hostIPC", .flag), ("hostNetwork", .flag), ("hostPID", .flag), ("hostUsers", .flag),
         ("imagePullSecrets", .list nameOnly),
         ("initContainers", .list (.record containerFields)),
         ("nodeSelector", .table .text), ("os", nameOnly), ("overhead", .table .text),
         ("priority", .int32),
         ("readinessGates", .list (.record [("conditionType", .text)])),
         ("resourceClaims", .list (.record
           [ ("name", .text),
             ("source", .record
               (texts ["resourceClaimName", "resourceClaimTemplateName"])) ])),
         ("schedulingGates", .list nameOnly),
         ("securityContext", .record
           ([ ("fsGroup", .int64), ("fsGroupChangePolicy", .text),
              ("supplementalGroups", .list .int64),
              ("sysctls", .list (.record (texts ["name", "value"]))) ] ++ sharedSecurity)),
         ("setHostnameAsFQDN", .flag), ("shareProcessNamespace", .flag),
         ("terminationGracePeriodSeconds", .int64),
         ("tolerations", .list (.record
           (("tolerationSeconds", .int64) :: texts ["effect", "key", "operator", "value"]))),
         ("topologySpreadConstraints", .list (.record
           ([ ("labelSelector", labelSelector), ("matchLabelKeys", .list .text),
              ("maxSkew", .int32), ("minDomains", .int32) ] ++
             texts ["nodeAffinityPolicy", "nodeTaintsPolicy", "topologyKey",
               "whenUnsatisfiable"]))),
         ("volumes", .list volume) ] ++
        texts ["dnsPolicy", "hostname", "nodeName", "preemptionPolicy", "priorityClassName",
          "restartPolicy", "runtimeClassName", "schedulerName", "serviceAccount",
          "serviceAccountName", "subdomain"])),
    ("status", .record
      ([ ("conditions", .list (.record
           (("lastProbeTime", .time) :: ("lastTransitionTime", .time) ::
             texts ["message", "reason", "status", "type"]))),
         ("containerStatuses", .list containerStatus),
         ("ephemeralContainerStatuses", .list containerStatus),
         ("hostIPs", .list (.record [("ip", .text)])),
         ("initContainerStatuses", .list containerStatus),
         ("podIPs", .list (.record [("ip", .text)])),
         ("resourceClaimStatuses", .list (.record (texts ["name", "resourceClaimName"]))),
         ("startTime", .time) ] ++
        texts ["hostIP", "message", "nominatedNodeName", "phase", "podIP", "qosClass",
          "reason", "resize"])) ]

end PodFirewall.Kube.Schema
